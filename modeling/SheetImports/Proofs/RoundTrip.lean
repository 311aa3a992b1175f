import Mathlib.Data.List.TakeWhile
import SheetImports.Proofs.Targets

/-!
# The imports of a document

Between statements the second scan skips fillers and literals, whatever they hold. A statement is
cut out at its keyword, and the scan goes on where the statement ends. So the imports that are read
off the text of a document are the imports that the document makes (`imports_text`).
-/

namespace SheetImports.Grammar

open Stylesheet Utf8

/-! ## Where a keyword ends -/

theorem isWordByte_octet : ∀ c ∈ spaces ++ quotes, isWordByte (octet c) = false :=
  forall_mem_of_all (by decide)

/-- A keyword is found if no letter follows it. -/
theorem afterImport?_keyword {keyword : Text} (h : keyword.map Char.toLower = importKeyword)
    {c : Char} (hc : c ∈ spaces ++ quotes) (text : Text) :
    afterImport? atSign (encode (keyword ++ c :: text)) = some (encode (c :: text)) := by
  have hlt : ∀ d ∈ spaces ++ quotes, d.toNat < 0x80 := forall_mem_of_all (by decide)
  have hascii : ∀ d ∈ importKeyword, d.toNat < 0x80 := forall_mem_of_all (by decide)
  have hword : afterWord? importWord (encode keyword ++ encode (c :: text))
      = some (encode (c :: text)) :=
    afterWord?_encode_of_eq hascii h _
  have hend : (!(encode (c :: text)).head?.any isWordByte) = true := by
    rw [encode_cons_of_lt (hlt c hc)]
    simp [isWordByte_octet c hc]
  rw [afterImport?, if_pos rfl, encode_append, hword, Option.filter_some, if_pos hend]

/-- The targets of a statement begin with a gap or with a quote. -/
theorem exists_head (statement : Import) (text : Text) :
    ∃ c ∈ spaces ++ quotes, ∃ others,
      statement.gap.blanked ++ (statement.first.text ++ text) = c :: others := by
  cases hgap : statement.gap.blanked with
  | cons c others =>
    have hc : c ∈ spaces := mem_spaces_of_gap c (hgap ▸ List.mem_cons_self)
    exact ⟨c, List.mem_append_left _ hc, _, rfl⟩
  | nil =>
    have hnil : statement.gap = [] := by
      by_contra hne
      exact blanked_ne_nil hne hgap
    have hurl : statement.first.isUrl = false := by
      cases h : statement.first.isUrl with
      | false => rfl
      | true => exact absurd hnil (statement.gap_ne_nil h)
    cases hfirst : statement.first with
    | quoted quote name _ _ => exact ⟨_, List.mem_append_right _ (mem_quotes quote), _, rfl⟩
    | url => rw [hfirst] at hurl; cases hurl
    | quotedUrl => rw [hfirst] at hurl; cases hurl

/-! ## Where a statement ends -/

theorem isTerminator_octet {c : Char} (hc : c.toNat < 0x80) :
    isTerminator (octet c) = decide (c ∈ marks) :=
  forall_ascii (p := fun c => isTerminator (octet c) = decide (c ∈ marks)) (by decide) hc

theorem isTerminator_of_le {b : UInt8} (h : 0x80 ≤ b) : isTerminator b = false := by
  have hne : ∀ d : UInt8, d < 0x80 → (b == d) = false := fun d hd =>
    beq_eq_false_iff_ne.2 (ne_of_high hd h)
  simp only [isTerminator, hne semicolon (by decide), hne 0x7B (by decide), hne 0x7D (by decide),
    hne newline (by decide), Bool.or_self]

theorem isTerminator_encode {text : Text} (h : ∀ c ∈ text, c ∉ marks) :
    ∀ b ∈ encode text, (!isTerminator b) = true := by
  refine forall_mem_encode (fun b hb => by rw [isTerminator_of_le hb]; rfl) fun c hmem hc => ?_
  rw [isTerminator_octet hc, decide_eq_false (h c hmem)]
  rfl

theorem ending_cases (ending : Ending) :
    ending = .endOfText ∨ ∃ c ∈ marks, ending.blanked = [c] := by
  cases ending with
  | mark c h => exact Or.inr ⟨c, h, rfl⟩
  | lineComment => exact Or.inr ⟨'\n', by decide, rfl⟩
  | endOfText => exact Or.inl rfl

/-- The scan goes on behind the end of a statement, which may be skipped again. -/
theorem statements_afterStatement (size : Nat) {text rest : Text} {ending : Ending}
    (htext : ∀ c ∈ text, c ∉ marks) (h : ending = .endOfText → rest = []) :
    (encode (text ++ (ending.blanked ++ rest))).takeWhile (!isTerminator ·) = encode text ∧
      statements size (afterStatement (encode (text ++ (ending.blanked ++ rest))))
        = statements size (encode rest) := by
  have htext := isTerminator_encode htext
  rw [afterStatement, encode_append]
  rcases ending_cases ending with hend | ⟨c, hc, hblanked⟩
  · rw [h hend, hend]
    have hstop : ∀ b ∈ (encode (Ending.endOfText.blanked ++ [])).head?,
        (!isTerminator b) = false := fun b hb => by cases hb
    rw [takeWhile_append_stop htext hstop, dropWhile_append_stop htext hstop]
    exact ⟨rfl, rfl⟩
  · have hlt := (marks_unglued c hc).1
    rw [hblanked, List.singleton_append, encode_cons_of_lt hlt]
    have hstop : ∀ b ∈ (octet c :: encode rest).head?, (!isTerminator b) = false := by
      intro b hb
      obtain rfl := Option.some.inj hb
      rw [isTerminator_octet hlt, decide_eq_true hc]
      rfl
    rw [takeWhile_append_stop htext hstop, dropWhile_append_stop htext hstop]
    refine ⟨rfl, ?_⟩
    rw [List.head?_cons]
    by_cases hsemicolon : octet c = semicolon
    · rw [if_pos (congrArg some hsemicolon)]
      rfl
    · rw [if_neg fun heq => hsemicolon (Option.some.inj heq)]
      have hskip : ∀ c ∈ marks, isQuote (octet c) = false ∧ octet c ≠ atSign :=
        forall_mem_of_all (by decide)
      exact statements_cons_of_skip (hskip c hc).1 (hskip c hc).2 _

/-! ## What stands between the targets and the end -/

theorem trailing_plain (statement : Import) :
    ∀ c ∈ statement.tail.blanked ++ statement.media.elim [] Media.blanked, c ∉ marks := by
  intro c hc
  rcases List.mem_append.1 hc with hc | hc
  · have hspace : ∀ c ∈ spaces, c ≠ '\n' → c ∉ marks := forall_mem_of_all (by decide)
    refine hspace c (mem_spaces_of_gap c hc) ?_
    rintro rfl
    exact statement.oneLine hc
  · cases hmedia : statement.media with
    | none => rw [hmedia] at hc; cases hc
    | some media => rw [hmedia] at hc; exact media.noMark c hc

theorem isBlank_of_mem_spaces : ∀ c ∈ spaces, Text.isBlank c = true :=
  forall_mem_of_all (by decide)

/-- Anything but blanks is left behind the targets if and only if there is a media text. -/
theorem any_trailing (statement : Import) :
    (statement.tail.blanked ++ statement.media.elim [] Media.blanked).any (!Text.isBlank ·)
      = statement.media.isSome := by
  have htail : statement.tail.blanked.any (!Text.isBlank ·) = false := by
    refine List.any_eq_false.2 fun c hc => ?_
    rw [isBlank_of_mem_spaces c (mem_spaces_of_gap c hc)]
    decide
  rw [List.any_append, htail, Bool.false_or]
  cases statement.media with
  | none => rfl
  | some media =>
    obtain ⟨c, hc, hvisible⟩ := media.visible
    exact List.any_eq_true.2 ⟨c, hc, by rw [hvisible]; rfl⟩

/-- The targets of a statement are all of its targets. -/
theorem trailing_comma (statement : Import) {text : Text}
    (h : statement.media = none → (text.dropWhile (· ∈ spaces)).head? ≠ some ',') :
    (((statement.tail.blanked ++ statement.media.elim [] Media.blanked) ++ text).dropWhile
      (· ∈ spaces)).head? ≠ some ',' := by
  rw [List.append_assoc, dropWhile_gap]
  cases hmedia : statement.media with
  | none => exact h hmedia
  | some media =>
    obtain ⟨c, hc, hvisible⟩ := media.visible
    have hne : media.blanked.dropWhile (· ∈ spaces) ≠ [] := by
      intro hnil
      have hmem := List.dropWhile_eq_nil_iff.1 hnil c hc
      rw [isBlank_of_mem_spaces c (of_decide_eq_true hmem)] at hvisible
      cases hvisible
    have hcomma := media.noComma
    rw [Option.elim_some, List.dropWhile_append, if_neg (by simpa using hne)]
    change (media.blanked.dropWhile (· ∈ spaces)).head? ≠ some ',' at hcomma
    rwa [List.head?_append_of_ne_nil _ hne]

/-! ## Statements -/

/-- What is read of the statements in the end of a text. -/
def directivesIn (total : Bytes) (bytes : Bytes) : List Directive :=
  (statements total.length bytes).flatMap (·.directives total)

theorem keyword_oneLine {keyword : Text} (h : keyword.map Char.toLower = importKeyword) :
    lineFeeds ('@' :: keyword) = 0 := by
  refine List.count_eq_zero.2 fun hmem => ?_
  rcases List.mem_cons.1 hmem with heq | hmem
  · exact absurd heq (by decide)
  · have hlower : Char.toLower '\n' ∈ importKeyword := h ▸ List.mem_map_of_mem hmem
    exact absurd hlower (by decide)

/-- A statement is read where it stands, and the scan goes on behind it. -/
theorem directivesIn_statement (statement : Import) {rest : Text}
    (hend : statement.ending = .endOfText → rest = [])
    (hcomma : statement.media = none →
      ((statement.ending.blanked ++ rest).dropWhile (· ∈ spaces)).head? ≠ some ',')
    {before total : Bytes} (htotal : total = before ++ encode (statement.blanked ++ rest)) :
    directivesIn total (encode (statement.blanked ++ rest))
      = statement.directives (newlines before + 1) ++ directivesIn total (encode rest) := by
  -- the statement is its keyword, its targets, what trails them, and its end
  let trailing := statement.tail.blanked ++ statement.media.elim [] Media.blanked
  let following := trailing ++ (statement.ending.blanked ++ rest)
  generalize hlist : statement.gap.blanked ++ (statement.first.text
    ++ (statement.others.flatMap Entry.blanked ++ following)) = list
  have htext : statement.blanked ++ rest = '@' :: (statement.keyword ++ list) := by
    rw [Import.blanked, ← hlist]
    simp only [List.append_assoc, List.cons_append, following, trailing]
  have hsplit : total = before ++ encode ('@' :: statement.keyword) ++ encode list := by
    rw [htotal, htext, List.append_assoc, ← encode_append, List.cons_append]
  have hline :
      newlines (before ++ encode ('@' :: statement.keyword)) + 1 = newlines before + 1 := by
    rw [newlines_append_encode, keyword_oneLine statement.isKeyword]
  obtain ⟨hrest, hdirectives⟩ := targets_encode statement (trailing_comma statement hcomma)
    statement.others statement.gap statement.first _ total list hlist.symm hsplit
  -- where the targets end, the scan looks for the mark, and what it passes is the media query
  obtain ⟨hmedia, hafter⟩ :=
    statements_afterStatement total.length (trailing_plain statement) hend
  have hkeyword :
      afterImport? atSign (encode (statement.keyword ++ list)) = some (encode list) := by
    obtain ⟨c, hc, others, hhead⟩ := exists_head statement
      (statement.others.flatMap Entry.blanked ++ following)
    rw [← hlist, hhead]
    exact afterImport?_keyword statement.isKeyword hc others
  have hat : encode ('@' :: (statement.keyword ++ list))
      = atSign :: encode (statement.keyword ++ list) := encode_cons_of_lt (by decide) _
  rw [htext, hat, directivesIn, statements_import hkeyword, hrest, hafter, List.flatMap_cons,
    Statement.directives]
  refine congrArg₂ (· ++ ·) ?_ rfl
  rw [hline] at hdirectives
  refine hdirectives _ ?_
  rw [Statement.hasMedia, Stretch.text]
  show (decode ((targets total.length (encode list)).2.takeWhile (!isTerminator ·))).any _ = _
  rw [hrest, hmedia, decode_encode]
  exact any_trailing statement

/-! ## Documents -/

theorem lineFeeds_item (item : Item) : lineFeeds item.blanked = lineFeeds item.text := by
  cases item with
  | filler run _ => rfl
  | comment comment => exact lineFeeds_of_blanks (blanks_comment comment)
  | literal literal => rfl
  | statement statement =>
    have hblank : blank (encode statement.text ++ []) = encode statement.blanked ++ blank [] :=
      blank_statement statement fun _ => rfl
    rw [List.append_nil, blank_nil, List.append_nil] at hblank
    exact lineFeeds_of_blank hblank

/-- Fillers and comments that were blanked out give no directive. -/
theorem directivesIn_append_of_skip {total : Bytes} {text : Text}
    (h : ∀ c ∈ text, c ∉ quotes ∧ c ≠ '@') (rest : Text) :
    directivesIn total (encode (text ++ rest)) = directivesIn total (encode rest) := by
  have hskip : ∀ b ∈ encode text, isQuote b = false ∧ b ≠ atSign := by
    refine forall_mem_encode (fun b hb => ⟨isQuote_of_le hb, ne_of_high (by decide) hb⟩) ?_
    intro c hmem hc
    obtain ⟨hquote, hat⟩ := h c hmem
    refine ⟨?_, fun heq => hat (octet_injective hc (by decide) heq)⟩
    rw [isQuote_octet hc, isQuote_of_notMem hquote]
  rw [directivesIn, encode_append, statements_append_of_skip hskip]
  rfl

/-- What is read of the items in the end of a document are their directives. -/
theorem directivesIn_items {items : List Item} (h : WellFormed items) :
    ∀ before total : Bytes, total = before ++ encode (items.flatMap Item.blanked) →
      directivesIn total (encode (items.flatMap Item.blanked))
        = itemDirectives (newlines before + 1) items := by
  induction items with
  | nil =>
    intro before total _
    rw [directivesIn, List.flatMap_nil, encode_nil, statements]
    rfl
  | cons item items ih =>
    intro before total htotal
    obtain ⟨hnext, hitems⟩ := h
    rw [List.flatMap_cons] at htotal ⊢
    have hrest := ih hitems (before ++ encode item.blanked) total
      (by rw [htotal, List.append_assoc, ← encode_append])
    have hline : newlines (before ++ encode item.blanked) + 1
        = newlines before + 1 + lineFeeds item.text := by
      rw [newlines_append_encode, lineFeeds_item]
      omega
    rw [hline] at hrest
    rw [itemDirectives, ← hrest]
    cases item with
    | filler run hat =>
      refine directivesIn_append_of_skip (fun c hc => ⟨(run.plain c hc).1, ?_⟩) _
      rintro rfl
      exact hat hc
    | comment comment =>
      have hplain : ∀ c ∈ spaces, c ∉ quotes ∧ c ≠ '@' := forall_mem_of_all (by decide)
      exact directivesIn_append_of_skip (fun c hc => hplain c (mem_spaces_of_comment c hc)) _
    | literal literal =>
      show directivesIn total (encode (literal.text ++ _)) = _
      rw [encode_append, encode_literal_append, directivesIn,
        statements_literal (isQuote_quote _), literalTail_encode literal.enclosed]
      rfl
    | statement statement =>
      exact directivesIn_statement statement
        (fun hend => by rw [hnext.1 hend]; rfl) (fun hmedia => hnext.2 hmedia) htotal

/-- The imports that are read off the text of a document are the imports that it makes. -/
theorem imports_text (document : Document) :
    Stylesheet.imports document.text = document.directives := by
  have hblank := blank_items document.wellFormed
  have hitems := directivesIn_items document.wellFormed [] _ rfl
  rw [imports, directives, Document.text, hblank]
  exact hitems

/-- A statement over several lines, with comments between its words and a media text. -/
def screenDocument : Document where
  items := [.comment (.line " first".toList (by decide)), .statement
    { keyword := "Import".toList
      isKeyword := by decide
      gap := [.comment (.block "'\n".toList (by decide))]
      first := .quoted .double "a".toList (by decide) (forall_mem_of_all (by decide))
      gap_ne_nil := fun h => by cases h
      others := [⟨[], [.space '\n' (by decide)], .url "URL(".toList [] "b".toList [' '] (by decide)
        (by decide) (forall_mem_of_all (by decide)) (forall_mem_of_all (by decide))
        (fun c h => by rcases h with h | h <;> cases h <;> rfl)⟩]
      tail := [.space ' ' (by decide)]
      oneLine := by decide
      media := some
        { parts := [.run ⟨"screen".toList, forall_mem_of_all (by decide), by decide⟩]
          apart := List.isChain_singleton _
          noMark := forall_mem_of_all (by decide)
          noComma := by decide
          visible := ⟨'s', by decide, rfl⟩ }
      ending := .endOfText }]
  wellFormed := ⟨trivial, ⟨fun _ => rfl, fun h => by cases h⟩, trivial⟩

example :
    screenDocument.text = "// first\n@Import/*'\n*/\"a\",\nURL(b ) screen".toList ∧
      screenDocument.directives = [⟨"a".toList, 3, .plainCss⟩, ⟨"b".toList, 4, .plainCss⟩] := by
  decide

end SheetImports.Grammar
