import SheetImports.Proofs.Outside

/-!
# Where the targets of a stylesheet open

Targets are read from a stylesheet without its comments. What is left of the stylesheet at a
position was at some other place of the stylesheet itself, with as many line feeds before it
(`ComesFrom`). A word like `url(` cannot begin in one piece and go on in the next, unless both are
single octets (`Stops`): so it stood as a whole at the place where it was (`exists_origin`), and
what opens a target opened it there (`exists_opening`).
-/

namespace SheetImports.Stylesheet

open Utf8

/-! ## Where the octets were -/

/-- What is left of the octets at `position` was at `origin`, inside a piece that is kept. -/
inductive ComesFrom : Bytes → Nat → Nat → Prop
  | here {b : UInt8} {bytes : Bytes} {position : Nat}
      (hkept : (next b bytes).1.blanked = (next b bytes).1.source)
      (hinside : position < (next b bytes).1.source.length) :
    ComesFrom (b :: bytes) position position
  | behind {b : UInt8} {bytes : Bytes} {position origin : Nat}
      (h : ComesFrom (next b bytes).2 position origin) :
    ComesFrom (b :: bytes) ((next b bytes).1.blanked.length + position)
      ((next b bytes).1.source.length + origin)

/-- As many line feeds are before the octet in both places. -/
theorem ComesFrom.newlines_take {bytes : Bytes} {position origin : Nat}
    (h : ComesFrom bytes position origin) :
    newlines ((blank bytes).take position) = newlines (bytes.take origin) := by
  induction h with
  | @here b bytes position hkept hinside =>
    have hleft : (blank (b :: bytes)).take position
        = (next b bytes).1.source.take position := by
      rw [blank_cons, hkept]
      exact List.take_append_of_le_length (Nat.le_of_lt hinside)
    rw [hleft, ← source_next_append b bytes, List.take_append_of_le_length (Nat.le_of_lt hinside)]
  | @behind b bytes position origin _ ih =>
    rw [blank_cons, List.take_length_add_append, newlines_append, ih, newlines_blanked_next,
      ← newlines_append, ← List.take_length_add_append, source_next_append]

/-! ## What cannot reach into the next piece -/

/-- The octets with which literals and urls end, and those that are left of comments. -/
def breaks (b : UInt8) : Bool := isQuote b || isGap b || b == closeParen

/-- The first part ends with an octet that breaks off a word, or nothing but a new line follows. -/
inductive Stops : Bytes → Bytes → Prop
  | atEnd (x : Bytes) : Stops x []
  | before (x y : Bytes) : Stops x (newline :: y)
  | behind {b : UInt8} (hb : breaks b = true) (x y : Bytes) : Stops (x ++ [b]) y

/-- A word without blanks, of which no octet but the last can be the end of a piece. -/
structure Solid (word : Bytes) : Prop where
  inner : ∀ b ∈ word.dropLast, breaks b = false
  visible : ∀ b ∈ word, isGap b = false

theorem Solid.tail {b : UInt8} {word : Bytes} (h : Solid (b :: word)) : Solid word where
  inner d hd := by
    refine h.inner d ?_
    cases word with
    | nil => cases hd
    | cons e word => exact List.mem_cons_of_mem _ hd
  visible d hd := h.visible d (List.mem_cons_of_mem _ hd)

namespace Stops

variable {x y word : Bytes}

theorem append_left (h : Stops x y) (first : Bytes) : Stops (first ++ x) y := by
  cases h with
  | atEnd => exact .atEnd _
  | before _ y => exact .before _ y
  | behind hb x _ =>
    rw [← List.append_assoc]
    exact .behind hb _ y

theorem cons (h : Stops x y) (b : UInt8) : Stops (b :: x) y := h.append_left [b]

/-- Of a stretch that cannot reach over a joint, no rest can. -/
theorem drop (h : Stops x y) {k : Nat} (hk : k < x.length) : Stops (x.drop k) y := by
  cases h with
  | atEnd => exact .atEnd _
  | before _ y => exact .before _ y
  | behind hb x _ =>
    rw [List.length_append, List.length_singleton] at hk
    rw [List.drop_append_of_le_length (Nat.le_of_lt_succ hk)]
    exact .behind hb _ y

/-- A word that begins in the first part ends there. -/
theorem prefix_left (h : Stops x y) (hword : Solid word) (hbegins : word <+: x ++ blank y) :
    word <+: x := by
  obtain ⟨rest, hrest⟩ := hbegins
  rcases List.append_eq_append_iff.1 hrest with ⟨left, rfl, -⟩ | ⟨more, rfl, hmore⟩
  · exact List.prefix_append word left
  · cases more with
    | nil => simp
    | cons d more =>
      exfalso
      cases h with
      | atEnd =>
        rw [blank_nil] at hmore
        cases hmore
      | before _ y =>
        rw [blank_cons, next_of_plain (by decide)] at hmore
        obtain ⟨rfl, -⟩ := List.cons.inj hmore
        exact absurd (hword.visible newline (by simp)) (by decide)
      | @behind b hb x _ =>
        have hinner : b ∈ (x ++ [b] ++ d :: more).dropLast := by
          rw [List.dropLast_append_of_ne_nil (List.cons_ne_nil d more)]
          exact List.mem_append_left _ (by simp)
        rw [hword.inner b hinner] at hb
        cases hb

end Stops

/-- A literal ends at its quote or at the end of its line, and no word goes on from there. -/
theorem stops_literalTail {quote : UInt8} (hquote : isQuote quote = true) (bytes : Bytes) :
    Stops (literalTail quote bytes).1 (literalTail quote bytes).2 := by
  fun_induction literalTail quote bytes with
  | case1 => exact .atEnd _
  | case2 => exact .atEnd _
  | case3 e bytes ih => exact (ih.cons e).cons backslash
  | case4 => exact .before _ _
  | case5 => exact .behind (by simp [breaks, hquote]) [] _
  | case6 b bytes _ _ _ ih => exact ih.cons b

/-- A piece is a single octet, or what is left of it does not reach into the next one. -/
theorem stops_next (b : UInt8) (bytes : Bytes) :
    next b bytes = (.plain b, bytes) ∨ Stops (next b bytes).1.blanked (next b bytes).2 := by
  unfold next
  split
  next hquote => exact .inr ((stops_literalTail hquote bytes).cons b)
  next =>
    split
    next after _ =>
      refine .inr ?_
      rw [Piece.blanked, afterUrl]
      rcases dropWhile_ne_cases closeParen after with hrest | ⟨rest, hrest⟩
      · rw [hrest]
        exact .atEnd _
      · rw [hrest]
        exact .behind (by decide) _ _
    next =>
      split
      next =>
        refine .inr ?_
        rcases dropWhile_ne_cases newline (bytes.drop 1) with hrest | ⟨rest, hrest⟩
        · rw [hrest]
          exact .atEnd _
        · rw [hrest]
          exact .before _ _
      next =>
        split
        · exact .inr (.behind (by decide) _ _)
        · exact .inl rfl

/-- What a comment leaves is blank. -/
theorem isGap_of_blanked_ne {piece : Piece} (h : piece.blanked ≠ piece.source) :
    ∀ d ∈ piece.blanked, isGap d = true := by
  cases piece with
  | literal => exact absurd rfl h
  | url => exact absurd rfl h
  | lineComment => exact fun d hd => absurd hd List.not_mem_nil
  | blockComment body closed => exact isGap_of_mem_blanked body closed
  | plain => exact absurd rfl h

/-- A word with which the rest begins when its comments are blanked out stands there before. -/
theorem prefix_of_prefix_blank {word bytes : Bytes} (hword : Solid word)
    (h : word <+: blank bytes) : word <+: bytes := by
  fun_induction pieces bytes generalizing word with
  | case1 => rwa [blank_nil] at h
  | case2 b bytes ih =>
    rw [blank_cons] at h
    cases word with
    | nil => exact List.nil_prefix
    | cons d word =>
      rcases stops_next b bytes with hplain | hstops
      · rw [hplain] at h ih
        obtain ⟨rfl, hrest⟩ := List.cons_prefix_cons.1 h
        exact List.cons_prefix_cons.2 ⟨rfl, ih hword.tail hrest⟩
      · have hleft := hstops.prefix_left hword h
        by_cases hkept : (next b bytes).1.blanked = (next b bytes).1.source
        · rw [hkept] at hleft
          exact hleft.trans ⟨_, source_next_append b bytes⟩
        · have hgap := isGap_of_blanked_ne hkept d (hleft.subset List.mem_cons_self)
          rw [hword.visible d List.mem_cons_self] at hgap
          cases hgap

/-- A word that is left at a position stood as a whole at the place where it was. -/
theorem exists_origin {word bytes : Bytes} {position : Nat} (hword : Solid word)
    (hne : word ≠ []) (h : word <+: (blank bytes).drop position) :
    ∃ origin, ComesFrom bytes position origin ∧ word <+: bytes.drop origin := by
  fun_induction pieces bytes generalizing position with
  | case1 =>
    rw [blank_nil, List.drop_nil] at h
    exact absurd (List.prefix_nil.1 h) hne
  | case2 b bytes ih =>
    rw [blank_cons] at h
    rcases Nat.lt_or_ge position (next b bytes).1.blanked.length with hlt | hge
    · rw [List.drop_append_of_le_length (Nat.le_of_lt hlt)] at h
      have hkept : (next b bytes).1.blanked = (next b bytes).1.source := by
        by_contra hcomment
        obtain ⟨d, word, rfl⟩ := List.exists_cons_of_ne_nil hne
        rw [List.drop_eq_getElem_cons hlt] at h
        obtain ⟨rfl, -⟩ := List.cons_prefix_cons.1 h
        have hgap := isGap_of_blanked_ne hcomment _ (List.getElem_mem hlt)
        rw [hword.visible _ List.mem_cons_self] at hgap
        cases hgap
      refine ⟨position, .here hkept (hkept ▸ hlt), ?_⟩
      -- a word that begins in a longer piece ends there; one that begins with an octet goes on
      -- in what follows, and nothing of that can have been a comment
      rcases stops_next b bytes with hplain | hstops
      · rw [hplain] at h hlt
        obtain rfl : position = 0 := Nat.lt_one_iff.1 hlt
        obtain ⟨d, word, rfl⟩ := List.exists_cons_of_ne_nil hne
        obtain ⟨rfl, hrest⟩ := List.cons_prefix_cons.1 h
        exact List.cons_prefix_cons.2 ⟨rfl, prefix_of_prefix_blank hword.tail hrest⟩
      · have hleft := (hstops.drop hlt).prefix_left hword h
        rw [← source_next_append b bytes, ← hkept,
          List.drop_append_of_le_length (Nat.le_of_lt hlt)]
        exact hleft.trans (List.prefix_append _ _)
    · obtain ⟨k, rfl⟩ := Nat.exists_eq_add_of_le hge
      rw [List.drop_length_add_append] at h
      obtain ⟨origin, hcomes, hbegins⟩ := ih h
      refine ⟨_, .behind hcomes, ?_⟩
      rw [← source_next_append b bytes, List.drop_length_add_append]
      exact hbegins

/-! ## What opens a target -/

/-- What may open a target, in small letters: a quote, or `url(`. -/
def openings (isUrl : Bool) : List Text :=
  if isUrl then [Grammar.urlOpening] else Grammar.quotes.map ([·])

/-- An opening is written with ASCII characters, at least one of them, and none is a line feed. -/
theorem opening_chars {isUrl : Bool} {word : Text} (h : word ∈ openings isUrl) :
    word ≠ [] ∧ ∀ c ∈ word, c.toNat < 0x80 ∧ c ≠ '\n' := by
  have hall : ∀ word ∈ openings isUrl,
      word ≠ [] ∧ word.all fun c => c.toNat < 0x80 ∧ c ≠ '\n' := by
    cases isUrl <;> exact forall_mem_of_all (by decide)
  obtain ⟨hne, hchars⟩ := hall word h
  exact ⟨hne, fun c hc => of_decide_eq_true (List.all_eq_true.1 hchars c hc)⟩

theorem openings_lt {isUrl : Bool} {word : Text} (h : word ∈ openings isUrl) :
    ∀ c ∈ word, c.toNat < 0x80 := fun c hc => ((opening_chars h).2 c hc).1

theorem exists_octet_of_opening {isUrl : Bool} {word : Text} (h : word ∈ openings isUrl) :
    ∃ b word', encode word = b :: word' ∧ b < 0x80 := by
  obtain ⟨c, word', rfl⟩ := List.exists_cons_of_ne_nil (opening_chars h).1
  have hc := openings_lt h c List.mem_cons_self
  refine ⟨octet c, encode word', encode_cons_of_lt hc word', ?_⟩
  rw [UInt8.lt_iff_toNat_lt, octet_toNat hc]
  exact hc

theorem afterWord?_eq_some_iff {word bytes after : Bytes} :
    afterWord? word bytes = some after ↔
      ∃ first, first.map lower = word ∧ bytes = first ++ after := by
  fun_induction afterWord? word bytes with
  | case1 bytes => simp
  | case2 w word => simp [List.map_eq_cons_iff]
  | case3 word b bytes ih =>
    rw [ih]
    constructor
    · rintro ⟨first, rfl, rfl⟩
      exact ⟨b :: first, rfl, rfl⟩
    · rintro ⟨first, hfirst, hbytes⟩
      obtain ⟨d, first, rfl, -, rfl⟩ := List.map_eq_cons_iff.1 hfirst
      exact ⟨first, rfl, (List.cons.inj hbytes).2⟩
  | case4 w word b bytes hne =>
    constructor
    · intro h
      cases h
    · rintro ⟨first, hfirst, hbytes⟩
      obtain ⟨d, first, rfl, hd, -⟩ := List.map_eq_cons_iff.1 hfirst
      exact absurd ((List.cons.inj hbytes).1 ▸ hd) hne

/-- A target that was found opens where it is marked, with a quote or with `url(`. -/
theorem target?_opens {size : Nat} {bytes rest : Bytes} {target : Target}
    (h : target? size bytes = some (target, rest)) :
    target.mark = size - bytes.length ∧
      ∃ word ∈ openings target.isUrl, ∃ after, afterWord? (encode word) bytes = some after := by
  cases bytes with
  | nil => cases h
  | cons b bytes =>
    simp only [target?] at h
    split at h
    next hquote =>
      obtain ⟨rfl, -⟩ := Prod.mk.inj (Option.some.inj h)
      refine ⟨rfl, ?_⟩
      simp only [isQuote, Bool.or_eq_true, beq_iff_eq] at hquote
      rcases hquote with rfl | rfl
      · exact ⟨['"'], List.mem_cons_self, bytes, rfl⟩
      · exact ⟨['\''], List.mem_cons_of_mem _ List.mem_cons_self, bytes, rfl⟩
    next =>
      obtain ⟨after, hafter, heq⟩ := Option.map_eq_some_iff.1 h
      obtain ⟨rfl, -⟩ := Prod.mk.inj heq
      exact ⟨rfl, Grammar.urlOpening, List.mem_singleton_self _, after, hafter⟩

theorem lower_of_isGap {b : UInt8} (h : isGap b = true) : lower b = b := by
  simp only [isGap, Bool.or_eq_true, beq_iff_eq] at h
  rcases h with (((rfl | rfl) | rfl) | rfl) | rfl <;> rfl

theorem solid_of_opening {isUrl : Bool} {word : Text} (hword : word ∈ openings isUrl)
    {first : Bytes} (hfirst : first.map lower = encode word) : Solid first := by
  cases isUrl with
  | true =>
    obtain rfl := List.mem_singleton.1 hword
    have hplain : ∀ b ∈ first, isQuote b = false ∧ isGap b = false ∧ b ≠ closeParen := by
      intro b hb
      have hlower : lower b ∈ urlWord := by
        have hmem : lower b ∈ first.map lower := List.mem_map_of_mem hb
        rwa [hfirst] at hmem
      obtain ⟨hquote, hgap⟩ := plain_of_lower (List.mem_append_left _ hlower)
      refine ⟨hquote, hgap, fun heq => ?_⟩
      rw [heq] at hlower
      exact absurd hlower (by decide)
    constructor
    · intro b hb
      obtain ⟨hquote, hgap, hclose⟩ := hplain b (List.dropLast_subset first hb)
      simp [breaks, hquote, hgap, hclose]
    · exact fun b hb => (hplain b hb).2.1
  | false =>
    obtain ⟨c, hc, rfl⟩ := List.mem_map.1 hword
    have hascii : c.toNat < 0x80 := openings_lt hword c List.mem_cons_self
    rw [encode_cons_of_lt hascii, encode_nil] at hfirst
    obtain ⟨b, others, rfl, hb, hnil⟩ := List.map_eq_cons_iff.1 hfirst
    obtain rfl := List.map_eq_nil_iff.1 hnil
    constructor
    · exact fun d hd => absurd hd List.not_mem_nil
    · intro d hd
      rw [List.mem_singleton.1 hd]
      by_contra hgap
      rw [lower_of_isGap (eq_true_of_ne_false hgap)] at hb
      have hquotes : ∀ c ∈ Grammar.quotes, isGap (octet c) = false :=
        forall_mem_of_all (by decide)
      exact hgap (hb ▸ hquotes c hc)

/-- What opens a target in what is left of a text opened it in the text. -/
theorem exists_opening {text word : Text} {isUrl : Bool} {position : Nat} {after : Bytes}
    (hword : word ∈ openings isUrl)
    (h : afterWord? (encode word) ((blank (encode text)).drop position) = some after) :
    ∃ before opening behind, text = before ++ opening ++ behind ∧
      opening.map Char.toLower = word ∧
      ComesFrom (encode text) position (encode before).length := by
  obtain ⟨first, hfirst, hleft⟩ := afterWord?_eq_some_iff.1 h
  obtain ⟨w, word', hword', hw⟩ := exists_octet_of_opening hword
  obtain ⟨b, first', rfl, hb, -⟩ := List.map_eq_cons_iff.1 (hfirst.trans hword')
  obtain ⟨origin, hcomes, rest, hrest⟩ :=
    exists_origin (solid_of_opening hword hfirst) (List.cons_ne_nil b first') ⟨after, hleft.symm⟩
  -- it begins with an ASCII octet, so it stands between two characters there
  obtain ⟨before, behind, rfl, hbehind⟩ : StandsIn (b :: first' ++ rest) text := by
    have hpart : Partway (b :: first' ++ rest) text :=
      (Partway.of_standsIn (.whole text)).of_suffix (hrest ▸ List.drop_suffix _ _)
    exact hpart.standsIn (lt_of_lower_lt (hb ▸ hw))
  have horigin : (encode before).length = origin := by
    have hpos : 0 < (encode behind).length := hbehind ▸ Nat.succ_pos _
    have hlength := congrArg List.length hrest
    rw [hbehind, List.length_drop, encode_append, List.length_append] at hlength
    omega
  have hbegins : word <+: behind.map Char.toLower := by
    by_contra hnot
    have hnone : afterWord? (encode word) (encode behind ++ []) = none :=
      Stylesheet.afterWord?_encode_eq_none (openings_lt hword) hnot fun b hb => by cases hb
    have hsome : afterWord? (encode word) (encode behind) = some rest :=
      afterWord?_eq_some_iff.2 ⟨_, hfirst, hbehind.symm⟩
    rw [List.append_nil, hsome] at hnone
    cases hnone
  refine ⟨before, behind.take word.length, behind.drop word.length, ?_, ?_, ?_⟩
  · rw [List.append_assoc, List.take_append_drop]
  · rw [List.map_take]
    exact (List.prefix_iff_eq_take.1 hbegins).symm
  · rwa [horigin]

end SheetImports.Stylesheet
