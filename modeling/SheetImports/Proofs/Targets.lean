import SheetImports.Proofs.Blanking

/-!
# The targets of a statement

The second scan goes through what is left of a document when its comments are blanked out. Where a
statement lists its targets, the scan finds each of them, reads its name and knows its line
(`targets_encode`).
-/

namespace SheetImports.Stylesheet

open Utf8

/-! ## One step of the scan -/

theorem eq_atSign_of_afterImport? {b : UInt8} {bytes after : Bytes}
    (h : afterImport? b bytes = some after) : b = atSign := by
  unfold afterImport? at h
  split at h
  · assumption
  · cases h

theorem statements_of_none {size : Nat} {b : UInt8} {bytes : Bytes} (hquote : isQuote b = false)
    (h : afterImport? b bytes = none) : statements size (b :: bytes) = statements size bytes := by
  rw [statements, if_neg (by simp [hquote])]
  split
  · next after hafter => rw [h] at hafter; cases hafter
  · rfl

theorem statements_cons_of_skip {size : Nat} {b : UInt8} (hquote : isQuote b = false)
    (hat : b ≠ atSign) (bytes : Bytes) : statements size (b :: bytes) = statements size bytes :=
  statements_of_none hquote (if_neg hat)

/-- Octets that are neither quotes nor `@` are passed over. -/
theorem statements_append_of_skip {size : Nat} {first : Bytes}
    (h : ∀ b ∈ first, isQuote b = false ∧ b ≠ atSign) (rest : Bytes) :
    statements size (first ++ rest) = statements size rest := by
  induction first with
  | nil => rfl
  | cons b first ih =>
    obtain ⟨hquote, hat⟩ := h b List.mem_cons_self
    rw [List.cons_append, statements_cons_of_skip hquote hat]
    exact ih fun d hd => h d (List.mem_cons_of_mem _ hd)

/-- A literal is passed over as a whole, with any `@import` in it. -/
theorem statements_literal {size : Nat} {quote : UInt8} (hquote : isQuote quote = true)
    (bytes : Bytes) :
    statements size (quote :: bytes) = statements size (literalTail quote bytes).2 := by
  rw [statements, if_pos hquote]

/-- A keyword opens a statement, and the scan goes on behind its end. -/
theorem statements_import {size : Nat} {bytes after : Bytes}
    (h : afterImport? atSign bytes = some after) :
    statements size (atSign :: bytes)
      = statement size (size - (atSign :: bytes).length) after
        :: statements size (afterStatement (targets size after).2) := by
  rw [statements, if_neg (by decide)]
  split
  · next found hfound =>
    obtain rfl : after = found := Option.some.inj (h.symm.trans hfound)
    rfl
  · next hnone => rw [h] at hnone; cases hnone

theorem targets_of_none {size : Nat} {bytes : Bytes}
    (h : target? size (bytes.dropWhile isGap) = none) :
    targets size bytes = ([], bytes.dropWhile isGap) := by
  rw [targets]
  split
  · rfl
  · next found rest hfound => rw [h] at hfound; cases hfound

/-- After a target the list goes on if a comma comes next. -/
theorem targets_of_target? {size : Nat} {bytes rest : Bytes} {t : Target}
    (h : target? size (bytes.dropWhile isGap) = some (t, rest)) :
    targets size bytes =
      match rest.dropWhile isGap with
      | [] => ([t], rest)
      | b :: more =>
        if b = comma then (t :: (targets size more).1, (targets size more).2) else ([t], rest) := by
  rw [targets]
  split
  · next hnone => rw [h] at hnone; cases hnone
  · next found others hfound =>
    obtain ⟨rfl, rfl⟩ := Prod.mk.inj (Option.some.inj (h.symm.trans hfound))
    split
    · next hnil => simp only [hnil]
    · next b more hmore => simp only [hmore]

theorem targets_last {size : Nat} {bytes rest : Bytes} {t : Target}
    (h : target? size (bytes.dropWhile isGap) = some (t, rest))
    (hcomma : (rest.dropWhile isGap).head? ≠ some comma) : targets size bytes = ([t], rest) := by
  rw [targets_of_target? h]
  cases hnext : rest.dropWhile isGap with
  | nil => rfl
  | cons b more =>
    rw [hnext] at hcomma
    exact if_neg fun hb => hcomma (congrArg some hb)

theorem targets_more {size : Nat} {bytes rest more : Bytes} {t : Target}
    (h : target? size (bytes.dropWhile isGap) = some (t, rest))
    (hcomma : rest.dropWhile isGap = comma :: more) :
    targets size bytes = (t :: (targets size more).1, (targets size more).2) := by
  rw [targets_of_target? h, hcomma]
  exact if_pos rfl

/-- A literal is a target of its own, opening quote included. -/
theorem target?_literal {size : Nat} {quote : UInt8} (hquote : isQuote quote = true)
    {bytes lexeme rest : Bytes} (h : literalTail quote bytes = (lexeme, rest)) :
    target? size (quote :: bytes) = some
      (⟨size - (quote :: bytes).length,
        ⟨size - (quote :: bytes).length, quote :: lexeme⟩, false⟩, rest) := by
  rw [target?, if_pos hquote, h]

theorem target?_url {size : Nat} {bytes after : Bytes}
    (h : afterWord? urlWord bytes = some after) :
    target? size bytes = some
      (⟨size - bytes.length, ⟨size - after.length, urlValue after⟩, true⟩, afterUrl after) := by
  cases bytes with
  | nil => cases h
  | cons b bytes => simp [target?, isQuote_of_afterWord? h, h]

theorem lineAt_append (before rest : Bytes) :
    lineAt (before ++ rest) ((before ++ rest).length - rest.length) = newlines before + 1 := by
  rw [lineAt, List.length_append, Nat.add_sub_cancel, List.take_left]

end SheetImports.Stylesheet

namespace SheetImports.Text

/-! ## Trimming -/

theorem trim_append {drop : Char → Bool} {before text after : Text}
    (hbefore : ∀ c ∈ before, drop c = true) (hafter : ∀ c ∈ after, drop c = true)
    (hends : ∀ c, text.head? = some c ∨ text.getLast? = some c → drop c = false)
    (hne : text ≠ []) : trim drop (before ++ text ++ after) = text := by
  have hstart : (before ++ text ++ after).dropWhile drop = text ++ after := by
    rw [List.append_assoc, List.dropWhile_append_of_pos hbefore]
    cases text with
    | nil => exact absurd rfl hne
    | cons c text => exact List.dropWhile_cons_of_neg (by simp [hends c (Or.inl rfl)])
  rw [trim, trimEnd, hstart, List.reverse_append,
    List.dropWhile_append_of_pos fun c hc => hafter c (List.mem_reverse.1 hc)]
  have hend : ∀ c, text.reverse.head? = some c → drop c = false := fun c hc =>
    hends c (Or.inr (List.head?_reverse.symm.trans hc))
  cases htext : text.reverse with
  | nil => exact absurd (List.reverse_eq_nil_iff.1 htext) hne
  | cons c others =>
    rw [List.dropWhile_cons_of_neg (by simp [hend c (by rw [htext]; rfl)]), ← htext,
      List.reverse_reverse]

end SheetImports.Text

namespace SheetImports.Grammar

open Stylesheet Utf8

/-! ## Gaps -/

theorem isGap_octet {c : Char} (hc : c.toNat < 0x80) : isGap (octet c) = decide (c ∈ spaces) :=
  forall_ascii (p := fun c => isGap (octet c) = decide (c ∈ spaces)) (by decide) hc

theorem isGap_of_le {b : UInt8} (h : 0x80 ≤ b) : isGap b = false := by
  have hne : ∀ d : UInt8, d < 0x80 → (b == d) = false := fun d hd =>
    beq_eq_false_iff_ne.2 (ne_of_high hd h)
  simp only [isGap, hne 0x20 (by decide), hne 0x09 (by decide), hne 0x0A (by decide),
    hne 0x0C (by decide), hne 0x0D (by decide), Bool.or_self]

theorem spaces_lt : ∀ c ∈ spaces, c.toNat < 0x80 := forall_mem_of_all (by decide)

theorem dropWhile_isGap_encode (text : Text) :
    (encode text).dropWhile isGap = encode (text.dropWhile (· ∈ spaces)) := by
  induction text with
  | nil => rfl
  | cons c text ih =>
    rcases Nat.lt_or_ge c.toNat 0x80 with hlt | hge
    · rw [encode_cons_of_lt hlt]
      by_cases hc : c ∈ spaces
      · rw [List.dropWhile_cons_of_pos (by rw [isGap_octet hlt, decide_eq_true hc]), ih,
          List.dropWhile_cons_of_pos (by simp [hc])]
      · rw [List.dropWhile_cons_of_neg (by simp [isGap_octet hlt, hc]),
          List.dropWhile_cons_of_neg (by simp [hc]), encode_cons_of_lt hlt]
    · have hc : c ∉ spaces := fun hmem => Nat.not_le.2 (spaces_lt c hmem) hge
      rw [List.dropWhile_cons_of_neg (by simp [hc]), encode_cons]
      cases hbytes : String.utf8EncodeChar c with
      | nil => exact absurd hbytes String.utf8EncodeChar_ne_nil
      | cons b others =>
        have hb : 0x80 ≤ b := le_of_mem_utf8EncodeChar hge (hbytes ▸ List.mem_cons_self)
        exact List.dropWhile_cons_of_neg (by simp [isGap_of_le hb])

theorem mem_spaces_of_comment {comment : Comment} : ∀ c ∈ comment.blanked, c ∈ spaces := by
  intro c hc
  cases comment with
  | line body oneLine =>
    obtain rfl : c = '\n' := List.mem_singleton.1 hc
    decide
  | block body closed =>
    rcases List.mem_append.1 hc with hc | hc
    · obtain rfl : c = '\n' := eq_of_beq (List.mem_filter.1 hc).2
      decide
    · obtain rfl : c = ' ' := List.mem_singleton.1 hc
      decide

/-- A gap is blank once its comments are blanked out. -/
theorem mem_spaces_of_gap {gap : Gap} : ∀ c ∈ gap.blanked, c ∈ spaces := by
  intro c hc
  obtain ⟨part, -, hc⟩ := List.mem_flatMap.1 hc
  cases part with
  | space d h =>
    obtain rfl : c = d := List.mem_singleton.1 hc
    exact h
  | comment comment => exact mem_spaces_of_comment c hc

theorem dropWhile_gap (gap : Gap) (text : Text) :
    (gap.blanked ++ text).dropWhile (· ∈ spaces) = text.dropWhile (· ∈ spaces) :=
  List.dropWhile_append_of_pos fun c hc => decide_eq_true (mem_spaces_of_gap c hc)

/-- No part of a gap is blanked out without a trace. -/
theorem blanked_ne_nil {gap : Gap} (h : gap ≠ []) : gap.blanked ≠ [] := by
  cases gap with
  | nil => exact absurd rfl h
  | cons part gap =>
    have hpart : part.blanked ≠ [] := by
      cases part with
      | space c _ => exact List.cons_ne_nil c []
      | comment comment =>
        cases comment with
        | line _ _ => exact List.cons_ne_nil _ []
        | block _ _ => exact List.append_ne_nil_of_right_ne_nil _ (List.cons_ne_nil _ [])
    exact List.append_ne_nil_of_left_ne_nil hpart _

/-! ## Line feeds -/

/-- What blanks to a text has as many line feeds. -/
theorem lineFeeds_of_blank {text blanked : Text} (h : blank (encode text) = encode blanked) :
    lineFeeds blanked = lineFeeds text := by
  rw [lineFeeds, lineFeeds, ← newlines_encode, ← newlines_encode, ← h, newlines_blank]

/-- Blanking moves nothing to another line. -/
theorem lineFeeds_of_blanks {text blanked : Text} (h : Blanks text blanked) :
    lineFeeds blanked = lineFeeds text := by
  refine lineFeeds_of_blank ?_
  have h := h []
  rwa [blank_nil, List.append_nil, List.append_nil] at h

theorem lineFeeds_append (first second : Text) :
    lineFeeds (first ++ second) = lineFeeds first + lineFeeds second :=
  List.count_append

/-! ## Targets -/

theorem isQuote_of_mem : ∀ c ∈ quotes, (c == '"' || c == '\'') = true :=
  forall_mem_of_all (by decide)

theorem isQuote_of_notMem {c : Char} (h : c ∉ quotes) : (c == '"' || c == '\'') = false := by
  rw [Bool.or_eq_false_iff, beq_eq_false_iff_ne, beq_eq_false_iff_ne]
  exact ⟨fun heq => h (heq ▸ by decide), fun heq => h (heq ▸ by decide)⟩

/-- Quotes around a name are taken off, and nothing of the name is. -/
theorem unquote_append {before name after : Text} (hbefore : ∀ c ∈ before, c ∈ quotes)
    (hafter : ∀ c ∈ after, c ∈ quotes) (hne : name ≠ []) (h : ∀ c ∈ name, c ∉ quotes) :
    unquote (before ++ name ++ after) = name := by
  refine Text.trim_append (fun c hc => isQuote_of_mem c (hbefore c hc))
    (fun c hc => isQuote_of_mem c (hafter c hc)) (fun c hc => isQuote_of_notMem (h c ?_)) hne
  rcases hc with hc | hc
  · exact List.mem_of_mem_head? hc
  · exact List.mem_of_getLast? hc

theorem unquote_name {name : Text} (hne : name ≠ []) (h : ∀ c ∈ name, c ∉ quotes) :
    unquote name = name := by
  have hnone : ∀ c ∈ ([] : Text), c ∈ quotes := fun c hc => absurd hc List.not_mem_nil
  have hname := unquote_append hnone hnone hne h
  rwa [List.nil_append, List.append_nil] at hname

theorem unquote_quoted {name : Text} (quote : Quote) (hne : name ≠ [])
    (h : ∀ c ∈ name, c ∉ quotes) : unquote (quote.char :: (name ++ [quote.char])) = name := by
  have hquote : ∀ c ∈ [quote.char], c ∈ quotes := by
    intro c hc
    rw [List.mem_singleton.1 hc]
    exact mem_quotes quote
  exact unquote_append hquote hquote hne h

/-- A target that is read as a name. -/
structure Reads (size : Nat) (target : Target) (rest : Bytes) (t : Stylesheet.Target) : Prop where
  found : target? size (encode target.text ++ rest) = some (t, rest)
  mark : t.mark = size - (encode target.text ++ rest).length
  text : t.text = target.name
  isUrl : t.isUrl = target.isUrl

/-- A url is a target up to its first closing parenthesis. -/
theorem exists_url {opening inner : Text} (hopening : opening.map Char.toLower = urlOpening)
    (hinner : ')' ∉ inner) (size : Nat) (rest : Bytes) :
    ∃ t, target? size (encode (opening ++ (inner ++ [')'])) ++ rest) = some (t, rest) ∧
      t.mark = size - (encode (opening ++ (inner ++ [')'])) ++ rest).length ∧
      t.text = unquote (Text.trimBlank inner) ∧ t.isUrl = true := by
  have hword := afterWord?_opening hopening (encode inner ++ closeParen :: rest)
  have hfound := @target?_url size _ _ hword
  rw [urlValue_encode hinner, afterUrl, dropWhile_url hinner] at hfound
  rw [encode_url]
  refine ⟨_, hfound, rfl, ?_, rfl⟩
  show unquote (Text.trimBlank (decode (encode inner))) = _
  rw [decode_encode]

/-- A target is found where it stands, and read as its name. -/
theorem exists_reads (target : Target) (size : Nat) (rest : Bytes) :
    ∃ t, Reads size target rest t := by
  cases target with
  | quoted quote name nonempty plain =>
    have htail := literalTail_encode (@enclosed_of_plain quote _ plain) rest
    have hfound := @target?_literal size _ (isQuote_quote quote) _ _ _ htail
    rw [← encode_literal_append ⟨quote, name, enclosed_of_plain plain⟩, ← encode_quoted] at hfound
    refine ⟨_, hfound, rfl, ?_, rfl⟩
    show unquote (decode (encode (quote.char :: (name ++ [quote.char])))) = name
    rw [decode_encode]
    exact unquote_quoted quote nonempty fun c hc => (plain c hc).1
  | url opening before name after nonempty isOpening blank plain trimmed =>
    have hinner : ')' ∉ before ++ name ++ after :=
      closeParen_notMem blank fun hmem => (plain ')' hmem).2 rfl
    obtain ⟨t, hfound, hmark, htext, hurl⟩ := exists_url isOpening hinner size rest
    refine ⟨t, hfound, hmark, ?_, hurl⟩
    have htrim : Text.trimBlank (before ++ name ++ after) = name :=
      Text.trim_append (fun c hc => blank c (List.mem_append_left _ hc))
        (fun c hc => blank c (List.mem_append_right _ hc)) trimmed nonempty
    rw [htext, htrim]
    exact unquote_name nonempty fun c hc => (plain c hc).1
  | quotedUrl opening before quote name after nonempty isOpening blank plain =>
    have hinner := closeParen_notMem blank (closeParen_notMem_quoted quote plain)
    obtain ⟨t, hfound, hmark, htext, hurl⟩ := exists_url isOpening hinner size rest
    refine ⟨t, hfound, hmark, ?_, hurl⟩
    have hquote : Text.isBlank quote.char = false := by cases quote <;> rfl
    have htrim : Text.trimBlank (before ++ (quote.char :: (name ++ [quote.char])) ++ after)
        = quote.char :: (name ++ [quote.char]) := by
      refine Text.trim_append (fun c hc => blank c (List.mem_append_left _ hc))
        (fun c hc => blank c (List.mem_append_right _ hc)) (fun c hc => ?_) (List.cons_ne_nil _ _)
      rw [← List.cons_append, List.getLast?_concat] at hc
      rcases hc with hc | hc <;> obtain rfl := Option.some.inj hc <;> exact hquote
    rw [htext, htrim]
    exact unquote_quoted quote nonempty fun c hc => (plain c hc).1

theorem name_ne_nil (target : Target) : target.name ≠ [] := by
  cases target <;> assumption

theorem isPlain_iff (statement : Import) (target : Target) :
    (target.isUrl || statement.media.isSome || namesCss target.name) = true
      ↔ statement.IsPlain target := by
  simp only [namesCss, Bool.or_eq_true, List.isSuffixOf_iff_suffix, List.isPrefixOf_iff_prefix,
    Import.IsPlain]
  constructor
  · rintro ((hurl | hmedia) | (((hcss | hhttp) | hhttps) | hslashes))
    · exact Or.inl hurl
    · exact Or.inr (Or.inl hmedia)
    · exact Or.inr (Or.inr (Or.inl hcss))
    · exact Or.inr (Or.inr (Or.inr (Or.inl hhttp)))
    · exact Or.inr (Or.inr (Or.inr (Or.inr (Or.inl hhttps))))
    · exact Or.inr (Or.inr (Or.inr (Or.inr (Or.inr hslashes))))
  · rintro (hurl | hmedia | hcss | hhttp | hhttps | hslashes)
    · exact Or.inl (Or.inl hurl)
    · exact Or.inl (Or.inr hmedia)
    · exact Or.inr (Or.inl (Or.inl (Or.inl hcss)))
    · exact Or.inr (Or.inl (Or.inl (Or.inr hhttp)))
    · exact Or.inr (Or.inl (Or.inr hhttps))
    · exact Or.inr (Or.inr hslashes)

/-- A target that is read as a name gives the directive for it. -/
theorem directive?_of_reads (statement : Import) {found : Statement}
    (hmedia : found.hasMedia = statement.media.isSome) (before : Bytes) {rest total : Bytes}
    {target : Target} {t : Stylesheet.Target}
    (htotal : total = before ++ (encode target.text ++ rest))
    (h : Reads total.length target rest t) :
    directive? total found t = some (statement.directive (newlines before + 1) target) := by
  have hline : lineAt total t.mark = newlines before + 1 := by
    rw [h.mark, htotal, lineAt_append]
  have hkind : kindOf found t
      = if statement.IsPlain target then ImportKind.plainCss else ImportKind.stylesheet := by
    rw [kindOf, h.isUrl, hmedia, h.text]
    exact if_congr (isPlain_iff statement target) rfl rfl
  rw [directive?, h.text, if_neg (name_ne_nil target), hline, hkind]
  rfl

/-! ## Statements -/

theorem not_space_of_url {c : Char} (h : c.toLower = 'u') : c ∉ spaces := fun hmem =>
  (spaces_plain c hmem).2.1 h

theorem dropWhile_target (target : Target) (text : Text) :
    (target.text ++ text).dropWhile (· ∈ spaces) = target.text ++ text := by
  cases target with
  | quoted quote name _ _ => exact List.dropWhile_cons_of_neg (by cases quote <;> decide)
  | url opening before name after _ isOpening _ _ _ =>
    obtain ⟨c, others, rfl, hc⟩ := exists_opening isOpening
    exact List.dropWhile_cons_of_neg (by simp [not_space_of_url hc])
  | quotedUrl opening before quote name after _ isOpening _ _ =>
    obtain ⟨c, others, rfl, hc⟩ := exists_opening isOpening
    exact List.dropWhile_cons_of_neg (by simp [not_space_of_url hc])

theorem head?_dropWhile_encode {text : Text}
    (h : (text.dropWhile (· ∈ spaces)).head? ≠ some ',') :
    ((encode text).dropWhile isGap).head? ≠ some comma := by
  rw [dropWhile_isGap_encode]
  cases hrest : text.dropWhile (· ∈ spaces) with
  | nil => exact fun heq => by cases heq
  | cons c rest =>
    have hc : c ≠ ',' := by
      rintro rfl
      rw [hrest] at h
      exact h rfl
    have hhead := head?_encode_cons_ne (d := ',') (by decide) hc rest []
    rwa [List.append_nil] at hhead

theorem dropWhile_comma (gap : Gap) (text : Text) :
    (encode (gap.blanked ++ ',' :: text)).dropWhile isGap = comma :: encode text := by
  rw [dropWhile_isGap_encode, dropWhile_gap, List.dropWhile_cons_of_neg (by decide),
    encode_cons_of_lt (by decide)]
  rfl

theorem newlines_append_encode (before : Bytes) (text : Text) :
    newlines (before ++ encode text) = newlines before + lineFeeds text := by
  rw [newlines_append, newlines_encode, lineFeeds]

/-- The target after a gap is found, and gives its directive. -/
theorem exists_target (statement : Import) (gap : Gap) (target : Target) (text : Text)
    {before total : Bytes}
    (htotal : total = before ++ encode (gap.blanked ++ (target.text ++ text))) :
    ∃ t, target? total.length ((encode (gap.blanked ++ (target.text ++ text))).dropWhile isGap)
        = some (t, encode text) ∧
      ∀ found : Statement, found.hasMedia = statement.media.isSome →
        directive? total found t
          = some (statement.directive (newlines before + 1 + lineFeeds gap.text) target) := by
  obtain ⟨t, ht⟩ := exists_reads target total.length (encode text)
  refine ⟨t, ?_, fun found hmedia => ?_⟩
  · rw [dropWhile_isGap_encode, dropWhile_gap, dropWhile_target, encode_append]
    exact ht.found
  · have hline : newlines (before ++ encode gap.blanked) + 1
        = newlines before + 1 + lineFeeds gap.text := by
      rw [newlines_append_encode, lineFeeds_of_blanks (blanks_gap gap)]
      omega
    rw [← hline]
    refine directive?_of_reads statement hmedia (before ++ encode gap.blanked) ?_ ht
    rw [htotal, encode_append, encode_append, List.append_assoc]

/-- The targets of a statement are found, one after the other, and give its directives: first the
one after a gap, then the entries. What follows begins with no comma. -/
theorem targets_encode (statement : Import) {following : Text}
    (hcomma : (following.dropWhile (· ∈ spaces)).head? ≠ some ',') (entries : List Entry) :
    ∀ (gap : Gap) (target : Target) (before total : Bytes) (text : Text),
      text = gap.blanked ++ (target.text ++ (entries.flatMap Entry.blanked ++ following)) →
      total = before ++ encode text →
      (targets total.length (encode text)).2 = encode following ∧
        ∀ found : Statement, found.hasMedia = statement.media.isSome →
          (targets total.length (encode text)).1.filterMap (directive? total found)
            = statement.directive (newlines before + 1 + lineFeeds gap.text) target
              :: statement.entryDirectives
                (newlines before + 1 + lineFeeds gap.text + lineFeeds target.text) entries := by
  induction entries with
  | nil =>
    rintro gap target before total text rfl htotal
    rw [List.flatMap_nil, List.nil_append] at htotal ⊢
    obtain ⟨t, hfound, hdirective⟩ := exists_target statement gap target following htotal
    rw [targets_last hfound (head?_dropWhile_encode hcomma)]
    refine ⟨rfl, fun found hmedia => ?_⟩
    rw [List.filterMap_cons, hdirective found hmedia]
    rfl
  | cons entry entries ih =>
    rintro gap target before total text rfl htotal
    -- the octets after the comma are where the rest of the list is looked for
    generalize hmore : entry.after.blanked
      ++ (entry.target.text ++ (entries.flatMap Entry.blanked ++ following)) = more at ih
    have hrest : (entry :: entries).flatMap Entry.blanked ++ following
        = entry.before.blanked ++ ',' :: more := by
      rw [List.flatMap_cons, Entry.blanked, ← hmore]
      simp only [List.append_assoc, List.cons_append]
    rw [hrest] at htotal ⊢
    obtain ⟨t, hfound, hdirective⟩ :=
      exists_target statement gap target (entry.before.blanked ++ ',' :: more) htotal
    have hsplit : total
        = before ++ encode (gap.blanked ++ (target.text ++ (entry.before.blanked ++ [','])))
          ++ encode more := by
      rw [htotal, List.append_assoc, ← encode_append]
      simp only [List.append_assoc, List.cons_append, List.nil_append]
    obtain ⟨hfollowing, hdirectives⟩ := ih entry.after entry.target _ total more hmore.symm hsplit
    have hline : newlines
          (before ++ encode (gap.blanked ++ (target.text ++ (entry.before.blanked ++ [','])))) + 1
        = newlines before + 1 + lineFeeds gap.text + lineFeeds target.text
          + lineFeeds entry.before.text := by
      have hcomma : lineFeeds [','] = 0 := rfl
      rw [newlines_append_encode, lineFeeds_append, lineFeeds_append, lineFeeds_append,
        lineFeeds_of_blanks (blanks_gap gap), lineFeeds_of_blanks (blanks_gap entry.before), hcomma]
      omega
    rw [targets_more hfound (dropWhile_comma entry.before more)]
    refine ⟨hfollowing, fun found hmedia => ?_⟩
    rw [List.filterMap_cons, hdirective found hmedia, hdirectives found hmedia, hline]
    rfl

end SheetImports.Grammar
