import SheetImports.Proofs.Lines

/-!
# A stylesheet without its comments

The first scan passes literals, urls and comments as wholes, and each of them begins and ends
between two characters (`exists_stretch`). So no character is cut, and what is left when comments
are blanked out is a text (`blanking_cuts_no_character`).

What is left of a piece is cut as it was before, for what follows it begins as before
(`pieces_blanked_append`): a literal that is not closed still ends before a line feed or with the
text, and a single octet does not become the first of a mark or of `url(`. So the second cut finds
the same literals and urls and no comment (`pieces_blank`), and blanking out is done once
(`blanking_done_once`).
-/

namespace SheetImports.Stylesheet

open Utf8

/-- What is left of a stylesheet when its comments are blanked out. -/
def withoutComments (text : Text) : Text := decode (blank (encode text))

theorem encode_withoutComments (text : Text) :
    encode (withoutComments text) = blank (encode text) := by
  obtain ⟨left, hleft⟩ := isText_blank ⟨text, rfl⟩
  rw [withoutComments, hleft, decode_encode]

/-! ## Whole characters -/

/-- Whether a piece is passed as a whole: a literal, a url or a comment. -/
def Piece.isStretch : Piece → Bool
  | plain _ => false
  | _ => true

theorem exists_append_of_plain {octets : Bytes} {cut first rest : List Piece} {piece : Piece}
    (h : octets.map .plain ++ cut = first ++ piece :: rest) (hpiece : piece.isStretch = true) :
    ∃ more, first = octets.map .plain ++ more ∧ cut = more ++ piece :: rest := by
  induction octets generalizing first with
  | nil => exact ⟨first, rfl, h⟩
  | cons b octets ih =>
    cases first with
    | nil =>
      obtain ⟨rfl, -⟩ := List.cons.inj h
      cases hpiece
    | cons p first =>
      obtain ⟨rfl, hrest⟩ := List.cons.inj h
      obtain ⟨more, rfl, hcut⟩ := ih hrest
      exact ⟨more, rfl, hcut⟩

/-- A literal, a url or a comment is made of whole characters, and so is what stands on either side
of it. -/
theorem exists_stretch {text : Text} {first rest : List Piece} {piece : Piece}
    (h : pieces (encode text) = first ++ piece :: rest) (hpiece : piece.isStretch = true) :
    ∃ before middle after, text = before ++ middle ++ after ∧
      first.flatMap Piece.source = encode before ∧ piece.source = encode middle ∧
      rest.flatMap Piece.source = encode after := by
  induction text using text_induction generalizing first with
  | nil =>
    rw [encode_nil, pieces] at h
    cases first <;> cases h
  | high c text hge ih =>
    have hplain : ∀ b ∈ String.utf8EncodeChar c, BeginsNoPiece b := by
      intro b hb
      exact beginsNoPiece_of_le (le_of_mem_utf8EncodeChar hge hb)
    rw [encode_cons, pieces_append_of_plain hplain] at h
    obtain ⟨more, rfl, hcut⟩ := exists_append_of_plain h hpiece
    obtain ⟨before, middle, after, rfl, hbefore, hmiddle, hafter⟩ := ih hcut
    refine ⟨c :: before, middle, after, rfl, ?_, hmiddle, hafter⟩
    rw [List.flatMap_append, hbefore, encode_cons, List.flatMap_map]
    simp [Piece.source]
  | piece b bytes start others htext hstart hothers ih =>
    rw [htext, pieces_cons, hothers] at h
    cases first with
    | nil =>
      obtain ⟨rfl, rfl⟩ := List.cons.inj h
      exact ⟨[], start, others, rfl, rfl, hstart, flatMap_source_pieces _⟩
    | cons p first =>
      obtain ⟨rfl, hcut⟩ := List.cons.inj h
      obtain ⟨before, middle, after, rfl, hbefore, hmiddle, hafter⟩ := ih hcut
      refine ⟨start ++ before, middle, after, by simp, ?_, hmiddle, hafter⟩
      rw [List.flatMap_cons, hbefore, hstart, encode_append]

/-- Nothing but spaces can be more than before. -/
theorem Thinned.count_le {source line : Text} (h : Thinned source line) {c : Char} (hc : c ≠ ' ') :
    line.count c ≤ source.count c := by
  induction h with
  | nil => exact Nat.le_refl _
  | keep d _ ih =>
    rw [List.count_cons, List.count_cons]
    omega
  | leaveOut _ _ ih => exact ih.trans List.count_le_count_cons
  | putIn _ ih => rwa [List.count_cons_of_ne (Ne.symm hc)]

/-- Blanking out comments cuts no character. The octets that are left hold no ill-formed sequence
and write a text, of which every character but the space was there before. Each literal, url and
comment begins and ends between two characters. -/
theorem blanking_cuts_no_character (text : Text) :
    units (blank (encode text)) = (withoutComments text).map some ∧
      encode (withoutComments text) = blank (encode text) ∧
      (∀ c, c ≠ ' ' → (withoutComments text).count c ≤ text.count c) ∧
      ∀ first piece rest, pieces (encode text) = first ++ piece :: rest →
        piece.isStretch = true → ∃ before middle after, text = before ++ middle ++ after ∧
          first.flatMap Piece.source = encode before ∧ piece.source = encode middle ∧
          rest.flatMap Piece.source = encode after := by
  refine ⟨?_, encode_withoutComments text, ?_, fun first piece rest => exists_stretch⟩
  · rw [← encode_withoutComments, units_encode]
  · intro c hc
    obtain ⟨left, hleft, hthinned⟩ := exists_thinned_blank text
    rw [withoutComments, hleft, decode_encode]
    exact hthinned.count_le hc

/-- An escaped letter of two octets in a literal, and more of them in a comment and behind it. -/
def accentedSheet : Text := "'\\é'/*ü*/ö".toList

theorem blanking_cuts_no_character_accented :
    withoutComments accentedSheet = "'\\é' ö".toList ∧
      (withoutComments accentedSheet).count 'ö' ≤ accentedSheet.count 'ö' ∧
      ∃ before middle after, accentedSheet = before ++ middle ++ after ∧
        (Piece.literal (encode "'\\é'".toList)).source = encode before ∧
        (Piece.blockComment (encode ['ü']) true).source = encode middle ∧
        encode ['ö'] = encode after := by
  have hpieces : pieces (encode accentedSheet)
      = [.literal (encode "'\\é'".toList)] ++ .blockComment (encode ['ü']) true
        :: (encode ['ö']).map .plain := by decide +kernel
  obtain ⟨-, -, hcount, hstretch⟩ := blanking_cuts_no_character accentedSheet
  exact ⟨by decide +kernel, hcount 'ö' (by decide), hstretch _ _ _ hpieces rfl⟩

/-! ## One pass -/

/-- What is cut out where a piece was, when its comments are blanked out and the rest is cut again.
-/
def Piece.recut : Piece → List Piece
  | lineComment _ => []
  | blockComment body closed => (blockComment body closed).blanked.map plain
  | piece => [piece]

theorem flatMap_blanked_recut (piece : Piece) :
    piece.recut.flatMap Piece.blanked = piece.blanked := by
  cases piece <;> simp [Piece.recut, Piece.blanked, List.flatMap_map]

/-- A url ends behind the first closing parenthesis, or with the text. -/
theorem next_url {b : UInt8} {bytes opening value stop : Bytes}
    (hbytes : b :: bytes = opening ++ (value ++ stop)) (hopening : opening.map lower = urlWord)
    (hvalue : ∀ d ∈ value, d ≠ closeParen) (hstop : ∀ d ∈ stop.head?, d = closeParen) :
    next b bytes = (.url (opening ++ value ++ stop.take 1), stop.drop 1) := by
  have hword : afterWord? urlWord (b :: bytes) = some (value ++ stop) :=
    afterWord?_eq_some_iff.2 ⟨opening, hopening, hbytes⟩
  have hlength : urlWord.length = opening.length := by rw [← hopening, List.length_map]
  have hinside : ∀ d ∈ value, decide (d ≠ closeParen) = true := by simpa using hvalue
  have hend : ∀ d ∈ stop.head?, decide (d ≠ closeParen) = false := by simpa using hstop
  rw [next, if_neg (by simp [isQuote_of_afterWord? hword]), hword]
  simp only
  rw [urlValue, afterUrl, takeWhile_append_stop hinside hend, dropWhile_append_stop hinside hend,
    hlength, hbytes, List.take_left]

/-- The parts of a url, as they are told from one another. -/
theorem exists_url_parts {bytes after : Bytes} (h : afterWord? urlWord bytes = some after) :
    ∃ opening value stop, bytes = opening ++ (value ++ stop) ∧ opening.map lower = urlWord ∧
      (∀ b ∈ value, b ≠ closeParen) ∧ ∀ b ∈ stop.head?, b = closeParen := by
  obtain ⟨opening, hopening, rfl⟩ := afterWord?_eq_some_iff.1 h
  refine ⟨opening, after.takeWhile (· ≠ closeParen), after.dropWhile (· ≠ closeParen), ?_, hopening,
    ?_, ?_⟩
  · rw [List.takeWhile_append_dropWhile]
  · intro b hb
    simpa using List.all_eq_true.1 List.all_takeWhile b hb
  · intro b hb
    rcases dropWhile_ne_cases closeParen after with hrest | ⟨rest, hrest⟩
    · rw [hrest] at hb
      cases hb
    · rw [hrest] at hb
      exact (Option.some.inj hb).symm

section Solid

variable {bytes other : Bytes} (hother : ∀ word, Solid word → word <+: other → word <+: bytes)

include hother

/-- An octet that is not blank is a word, so it is not new in front either. -/
theorem head?_of_solid {d : UInt8} (hd : isGap d = false) (hhead : other.head? = some d) :
    bytes.head? = some d := by
  obtain ⟨rest, hrest⟩ := List.head?_eq_some_iff.1 hhead
  have hsolid : Solid [d] := ⟨by simp, by simpa using hd⟩
  obtain ⟨before, rfl⟩ := hother [d] hsolid ⟨rest, hrest.symm⟩
  rfl

/-- A url whose other letters stand in `other` begins in front of `bytes` too. -/
theorem urlWord_of_solid {b : UInt8} (h : afterWord? urlWord (b :: bytes) = none) :
    afterWord? urlWord (b :: other) = none := by
  rw [Option.eq_none_iff_forall_ne_some] at h ⊢
  intro after hword
  obtain ⟨first, hfirst, heq⟩ := afterWord?_eq_some_iff.1 hword
  have hsolid : Solid first :=
    solid_of_opening (show _ ∈ openings true from List.mem_singleton_self _) hfirst
  obtain ⟨d, letters, rfl, -, -⟩ := List.map_eq_cons_iff.1 hfirst
  obtain ⟨rfl, hletters⟩ := List.cons.inj heq
  obtain ⟨rest, rfl⟩ := hother letters hsolid.tail ⟨after, hletters.symm⟩
  exact h rest (afterWord?_eq_some_iff.2 ⟨b :: letters, hfirst, rfl⟩)

/-- A single octet stays one in front of octets that do not begin with a word that was not there. -/
theorem next_plain_of_solid {b : UInt8} (h : next b bytes = (.plain b, bytes)) :
    next b other = (.plain b, other) := by
  obtain ⟨hquote, hurl, hline, hblock⟩ := next_eq_plain_iff.1 h
  refine next_eq_plain_iff.2 ⟨hquote, urlWord_of_solid hother hurl, ?_, ?_⟩
  · rintro ⟨hslash, hhead⟩
    exact hline ⟨hslash, head?_of_solid hother (by decide) hhead⟩
  · rintro ⟨hslash, hhead⟩
    exact hblock ⟨hslash, head?_of_solid hother (by decide) hhead⟩

end Solid

/-- A url that was cut is cut again, up to its first closing parenthesis. -/
theorem pieces_url_append {opening value stop : Bytes} (hopening : opening.map lower = urlWord)
    (hvalue : ∀ d ∈ value, d ≠ closeParen) (hstop : ∀ d ∈ stop.head?, d = closeParen) :
    pieces (opening ++ value ++ stop.take 1 ++ blank (stop.drop 1))
      = .url (opening ++ value ++ stop.take 1) :: pieces (blank (stop.drop 1)) := by
  -- the end of the url, and what is left behind it
  generalize hleft : stop.take 1 ++ blank (stop.drop 1) = left
  have hparts : left.take 1 = stop.take 1 ∧ left.drop 1 = blank (stop.drop 1) := by
    cases stop <;> simp [← hleft, blank_nil]
  have hend : ∀ d ∈ left.head?, d = closeParen := by
    cases stop with
    | nil => simp [← hleft, blank_nil]
    | cons c stop => simpa [← hleft] using hstop
  obtain ⟨b, letters, rfl, -, -⟩ := List.map_eq_cons_iff.1 hopening
  rw [List.append_assoc, hleft, List.append_assoc, List.cons_append, pieces_cons,
    next_url List.cons_append.symm hopening hvalue hend, hparts.1, hparts.2]

/-- What is left of a piece is cut as the piece was, and the cut goes on behind it. -/
theorem pieces_blanked_append (b : UInt8) (bytes : Bytes) :
    pieces ((next b bytes).1.blanked ++ blank (next b bytes).2)
      = (next b bytes).1.recut ++ pieces (blank (next b bytes).2) := by
  cases hurl : afterWord? urlWord (b :: bytes) with
  | some after =>
    obtain ⟨opening, value, stop, hbytes, hopening, hvalue, hstop⟩ := exists_url_parts hurl
    rw [next_url hbytes hopening hvalue hstop]
    exact pieces_url_append hopening hvalue hstop
  | none =>
    rcases next_cases hurl with ⟨hquote, hnext⟩ | ⟨body, hnext⟩ | ⟨body, rest, hnext⟩ |
      ⟨body, closed, rest, hnext⟩ | ⟨-, hnext⟩
    · rw [hnext]
      show pieces (b :: ((literalTail b bytes).1 ++ blank (literalTail b bytes).2)) = _
      rw [pieces_cons, next, if_pos hquote, literalTail_blank]
      rfl
    · rw [hnext]
      rfl
    · rw [hnext]
      rfl
    · have hplain : ∀ d ∈ (Piece.blockComment body closed).blanked, BeginsNoPiece d := by
        intro d hd
        rcases List.mem_append.1 hd with hd | hd
        · rw [eq_of_beq (List.mem_filter.1 hd).2]
          decide
        · rw [List.mem_singleton.1 hd]
          decide
      rw [hnext]
      exact pieces_append_of_plain hplain _
    · have hagain := next_plain_of_solid (fun word hword => prefix_of_prefix_blank hword) hnext
      rw [hnext]
      show pieces (b :: blank bytes) = _
      rw [pieces_cons, hagain]
      rfl

/-- Cut again, what is left of a stylesheet has the literals, the urls and the single octets that it
had, and no comment: nothing is glued to anything else. -/
theorem pieces_blank (bytes : Bytes) :
    pieces (blank bytes) = (pieces bytes).flatMap Piece.recut := by
  fun_induction pieces bytes with
  | case1 => rw [blank_nil, pieces, List.flatMap_nil]
  | case2 b bytes ih => rw [blank_cons, pieces_blanked_append, ih, List.flatMap_cons]

theorem blank_blank (bytes : Bytes) : blank (blank bytes) = blank bytes := by
  rw [blank, pieces_blank, List.flatMap_assoc, blank]
  exact List.flatMap_congr fun piece _ => flatMap_blanked_recut piece

/-- Comments are blanked out in one pass. Nothing is left to blank out, the imports are the same,
and what is left is cut into the literals, urls and single octets that were there. -/
theorem blanking_done_once (text : Text) :
    withoutComments (withoutComments text) = withoutComments text ∧
      imports (withoutComments text) = imports text ∧
      pieces (encode (withoutComments text)) = (pieces (encode text)).flatMap Piece.recut := by
  have honce : blank (encode (withoutComments text)) = blank (encode text) := by
    rw [encode_withoutComments, blank_blank]
  refine ⟨?_, ?_, ?_⟩
  · rw [withoutComments, honce, withoutComments]
  · rw [imports, honce, imports]
  · rw [encode_withoutComments, pieces_blank]

-- the space that a comment leaves keeps letters and slashes apart
example : withoutComments "ur/*.*/l(//x)\n/*.*//".toList = "ur l(\n /".toList := by decide +kernel

end SheetImports.Stylesheet
