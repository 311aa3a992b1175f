import SheetImports.Proofs.Grammar
import SheetImports.Proofs.Octets

/-!
# Blanking out the comments of a document

The first scan goes through a document part by part: where a part begins, a piece begins, and the
pieces of the part blank to its `blanked` text (`Blanks`). Comments, literals and urls bring their
own end along. A run does not: it must not be followed by an octet that goes on with `url(`
(`Unglued`), and in a document nothing that follows a run does.
-/

namespace SheetImports.Stylesheet

open Utf8

/-! ## One piece -/

theorem blank_nil : blank [] = [] := by
  rw [blank, pieces, List.flatMap_nil]

theorem pieces_cons (b : UInt8) (bytes : Bytes) :
    pieces (b :: bytes) = (next b bytes).1 :: pieces (next b bytes).2 := by
  rw [pieces]

theorem blank_cons (b : UInt8) (bytes : Bytes) :
    blank (b :: bytes) = (next b bytes).1.blanked ++ blank (next b bytes).2 := by
  rw [blank, pieces_cons, List.flatMap_cons]
  rfl

/-- When an octet is a piece by itself: it opens no literal, no url and no comment. -/
theorem next_eq_plain_iff {b : UInt8} {bytes : Bytes} :
    next b bytes = (.plain b, bytes) ↔
      isQuote b = false ∧ afterWord? urlWord (b :: bytes) = none ∧
        ¬ (b = slash ∧ bytes.head? = some slash) ∧ ¬ (b = slash ∧ bytes.head? = some star) := by
  constructor
  · intro h
    unfold next at h
    split at h
    next => cases h
    next hquote =>
      split at h
      next => cases h
      next hurl =>
        split at h
        next => cases h
        next hline =>
          split at h
          next => cases h
          next hblock => exact ⟨eq_false_of_ne_true hquote, hurl, hline, hblock⟩
  · rintro ⟨hquote, hurl, hline, hblock⟩
    rw [next, if_neg (ne_true_of_eq_false hquote), hurl]
    simp only
    rw [if_neg hline, if_neg hblock]

theorem blank_cons_of_plain {b : UInt8} {bytes : Bytes} (hquote : isQuote b = false)
    (hurl : afterWord? urlWord (b :: bytes) = none) (hslash : b ≠ slash) :
    blank (b :: bytes) = b :: blank bytes := by
  rw [blank_cons, next_eq_plain_iff.2 ⟨hquote, hurl, mt And.left hslash, mt And.left hslash⟩]
  rfl

/-- An octet that begins no piece of its own, whatever follows it. -/
def BeginsNoPiece (b : UInt8) : Prop := isQuote b = false ∧ lower b ≠ 0x75 ∧ b ≠ slash

instance (b : UInt8) : Decidable (BeginsNoPiece b) := inferInstanceAs (Decidable (_ ∧ _))

theorem beginsNoPiece_of_le {b : UInt8} (h : 0x80 ≤ b) : BeginsNoPiece b := by
  refine ⟨isQuote_of_le h, ?_, ne_of_high (by decide) h⟩
  rw [lower_of_le h]
  exact ne_of_high (by decide) h

theorem next_of_plain {b : UInt8} (h : BeginsNoPiece b) (bytes : Bytes) :
    next b bytes = (.plain b, bytes) := by
  obtain ⟨hquote, hletter, hslash⟩ := h
  have hurl : afterWord? urlWord (b :: bytes) = none := if_neg hletter
  exact next_eq_plain_iff.2 ⟨hquote, hurl, mt And.left hslash, mt And.left hslash⟩

theorem pieces_append_of_plain {first : Bytes} (h : ∀ b ∈ first, BeginsNoPiece b) (rest : Bytes) :
    pieces (first ++ rest) = first.map .plain ++ pieces rest := by
  induction first with
  | nil => rfl
  | cons b first ih =>
    obtain ⟨hb, hfirst⟩ := List.forall_mem_cons.1 h
    rw [List.cons_append, pieces_cons, next_of_plain hb, ih hfirst]
    rfl

/-- Octets at which nothing can begin are kept, and the scan goes on behind them. -/
theorem blank_append_of_plain {first : Bytes} (h : ∀ b ∈ first, BeginsNoPiece b) (rest : Bytes) :
    blank (first ++ rest) = first ++ blank rest := by
  rw [blank, pieces_append_of_plain h, List.flatMap_append, List.flatMap_map]
  simp only [Piece.blanked, List.flatMap_singleton']
  rfl

theorem blank_literal {quote : UInt8} (hquote : isQuote quote = true) {lexeme bytes rest : Bytes}
    (h : literalTail quote bytes = (lexeme, rest)) :
    blank (quote :: bytes) = quote :: lexeme ++ blank rest := by
  rw [blank_cons, next, if_pos hquote, h]
  rfl

theorem isQuote_of_afterWord? {b : UInt8} {bytes after : Bytes}
    (h : afterWord? urlWord (b :: bytes) = some after) : isQuote b = false := by
  cases hb : isQuote b with
  | false => rfl
  | true =>
    rw [isQuote, Bool.or_eq_true, beq_iff_eq, beq_iff_eq] at hb
    rcases hb with rfl | rfl <;> cases h

theorem blank_url {bytes after : Bytes} (h : afterWord? urlWord bytes = some after) :
    blank bytes = bytes.take urlWord.length ++ urlValue after
      ++ (after.dropWhile (· ≠ closeParen)).take 1 ++ blank (afterUrl after) := by
  cases bytes with
  | nil => cases h
  | cons b bytes =>
    rw [blank_cons, next]
    simp [isQuote_of_afterWord? h, h, Piece.blanked]

theorem blank_lineComment (bytes : Bytes) :
    blank (slash :: slash :: bytes) = blank (bytes.dropWhile (· ≠ newline)) := by
  have hurl : afterWord? urlWord (slash :: slash :: bytes) = none := rfl
  rw [blank_cons, next]
  simp [hurl, Piece.blanked, show isQuote slash = false from rfl]

theorem blank_blockComment (bytes : Bytes) :
    blank (slash :: star :: bytes)
      = (blockBody bytes).1.filter (· == newline) ++ space :: blank (blockBody bytes).2.1 := by
  have hurl : afterWord? urlWord (slash :: star :: bytes) = none := rfl
  rw [blank_cons, next]
  simp [hurl, Piece.blanked, show isQuote slash = false from rfl, show star ≠ slash by decide]

/-! ## Stretches with an end of their own -/

theorem literalTail_append_of_ne {quote : UInt8} {first : Bytes}
    (h : ∀ b ∈ first, b ≠ backslash ∧ b ≠ newline ∧ b ≠ quote) (rest : Bytes) :
    literalTail quote (first ++ rest)
      = (first ++ (literalTail quote rest).1, (literalTail quote rest).2) := by
  induction first with
  | nil => rfl
  | cons b first ih =>
    obtain ⟨hslash, hline, hquote⟩ := h b List.mem_cons_self
    rw [List.cons_append, literalTail.eq_def]
    simp only [hslash, hline, hquote, ↓reduceIte]
    rw [ih fun d hd => h d (List.mem_cons_of_mem _ hd)]
    rfl

theorem literalTail_quote {quote : UInt8} (hslash : quote ≠ backslash) (hline : quote ≠ newline)
    (rest : Bytes) : literalTail quote (quote :: rest) = ([quote], rest) := by
  rw [literalTail.eq_def]
  simp only [hslash, hline, ↓reduceIte]

theorem blockBody_append_of_ne {first : Bytes} (h : ∀ b ∈ first, b ≠ star) (rest : Bytes) :
    blockBody (first ++ rest) = (first ++ (blockBody rest).1, (blockBody rest).2) := by
  induction first with
  | nil => rfl
  | cons b first ih =>
    have hb : ¬ (b = star ∧ (first ++ rest).head? = some slash) :=
      fun hend => h b List.mem_cons_self hend.1
    rw [List.cons_append, blockBody, if_neg hb, ih fun d hd => h d (List.mem_cons_of_mem _ hd)]
    rfl

theorem takeWhile_append_stop {p : UInt8 → Bool} {first stop : Bytes}
    (hfirst : ∀ b ∈ first, p b = true) (hstop : ∀ b ∈ stop.head?, p b = false) :
    (first ++ stop).takeWhile p = first := by
  rw [List.takeWhile_append_of_pos hfirst]
  cases stop with
  | nil => exact List.append_nil first
  | cons b stop => rw [List.takeWhile_cons_of_neg (by simp [hstop b rfl]), List.append_nil]

theorem dropWhile_append_stop {p : UInt8 → Bool} {first stop : Bytes}
    (hfirst : ∀ b ∈ first, p b = true) (hstop : ∀ b ∈ stop.head?, p b = false) :
    (first ++ stop).dropWhile p = stop := by
  rw [List.dropWhile_append_of_pos hfirst]
  cases stop with
  | nil => rfl
  | cons b stop => exact List.dropWhile_cons_of_neg (by simp [hstop b rfl])

end SheetImports.Stylesheet

namespace SheetImports.Grammar

open Stylesheet Utf8

/-! ## Parts of a document -/

/-- Where the text stands, whatever follows it, its pieces blank to the other text. -/
def Blanks (text blanked : Text) : Prop :=
  ∀ rest : Bytes, blank (encode text ++ rest) = encode blanked ++ blank rest

namespace Blanks

theorem nil : Blanks [] [] := fun _ => rfl

theorem append {first first' second second' : Text} (h : Blanks first first')
    (h' : Blanks second second') : Blanks (first ++ second) (first' ++ second') := by
  intro rest
  rw [encode_append, encode_append, List.append_assoc, List.append_assoc, h, h']

theorem flatMap {α : Type} {text blanked : α → Text} {parts : List α}
    (h : ∀ part ∈ parts, Blanks (text part) (blanked part)) :
    Blanks (parts.flatMap text) (parts.flatMap blanked) := by
  induction parts with
  | nil => exact nil
  | cons part parts ih =>
    rw [List.flatMap_cons, List.flatMap_cons]
    exact (h part List.mem_cons_self).append (ih fun other hother =>
      h other (List.mem_cons_of_mem _ hother))

end Blanks

theorem beginsNoPiece_octet {c : Char} (hc : c.toNat < 0x80) (hquote : c ∉ quotes)
    (hletter : c.toLower ≠ 'u') (hslash : c ≠ '/') : BeginsNoPiece (octet c) := by
  revert hquote hletter hslash
  exact forall_ascii (p := fun c => c ∉ quotes → c.toLower ≠ 'u' → c ≠ '/' →
    BeginsNoPiece (octet c)) (by decide) hc

theorem blanks_of_plain {text : Text}
    (h : ∀ c ∈ text, c ∉ quotes ∧ c.toLower ≠ 'u' ∧ c ≠ '/') : Blanks text text := by
  intro rest
  refine blank_append_of_plain (forall_mem_encode (fun b => beginsNoPiece_of_le) ?_) rest
  intro c hmem hc
  obtain ⟨hquote, hletter, hslash⟩ := h c hmem
  exact beginsNoPiece_octet hc hquote hletter hslash

/-! ### Comments -/

theorem filter_newline_encode (text : Text) :
    (encode text).filter (· == newline) = encode (text.filter (· == '\n')) := by
  rw [List.filter_beq, List.filter_beq]
  have hcount : (encode text).count newline = text.count '\n' := newlines_encode text
  rw [hcount]
  induction text.count '\n' with
  | zero => rfl
  | succ n ih => rw [List.replicate_succ, List.replicate_succ, encode_cons, ← ih]; rfl

/-- A body without `*/` is the body of the comment that it stands in. -/
theorem blockBody_encode {body : Text} (h : ¬ "*/".toList <:+: body) (rest : Bytes) :
    blockBody (encode body ++ star :: slash :: rest) = (encode body, rest, true) := by
  induction body with
  | nil => rfl
  | cons c body ih =>
    have ih := ih fun hinfix => h (List.infix_cons hinfix)
    by_cases hc : c = '*'
    · subst hc
      -- A star does not end the comment, for no slash comes after it.
      have hnext : (encode body ++ star :: slash :: rest).head? ≠ some slash := by
        cases body with
        | nil => exact fun heq => absurd (Option.some.inj heq) (by decide)
        | cons d body =>
          refine head?_encode_cons_ne (d := '/') (by decide) ?_ body _
          rintro rfl
          exact h ⟨[], body, rfl⟩
      have hstar : octet '*' = star := rfl
      rw [encode_cons_of_lt (by decide), List.cons_append, hstar, blockBody,
        if_neg fun hend => hnext hend.2, ih]
    · have hne : ∀ b ∈ String.utf8EncodeChar c, b ≠ star :=
        ne_octet_of_mem_char (d := '*') (by decide) hc
      rw [encode_cons, List.append_assoc, blockBody_append_of_ne hne, ih]

/-- A comment leaves its line feeds, and a space if it is a block comment. -/
theorem blanks_comment (comment : Comment) : Blanks comment.text comment.blanked := by
  intro rest
  cases comment with
  | line body oneLine =>
    have htext : encode (Comment.line body oneLine).text ++ rest
        = slash :: slash :: (encode body ++ newline :: rest) := by
      rw [Comment.text, encode_cons_of_lt (by decide), encode_cons_of_lt (by decide), encode_append,
        List.cons_append, List.cons_append, List.append_assoc]
      rfl
    have hbody : ∀ b ∈ encode body, decide (b ≠ newline) = true := fun b hb =>
      decide_eq_true (ne_octet_of_mem_encode (d := '\n') (by decide) oneLine b hb)
    have hstop : ∀ b ∈ (newline :: rest).head?, decide (b ≠ newline) = false := by simp
    rw [htext, blank_lineComment, dropWhile_append_stop hbody hstop]
    have hline : ∀ b ∈ [newline], BeginsNoPiece b := forall_mem_of_all (by decide)
    exact blank_append_of_plain hline rest
  | block body closed =>
    have htext : encode (Comment.block body closed).text ++ rest
        = slash :: Stylesheet.star :: (encode body ++ Stylesheet.star :: slash :: rest) := by
      rw [Comment.text, encode_cons_of_lt (by decide), encode_cons_of_lt (by decide), encode_append,
        List.cons_append, List.cons_append, List.append_assoc]
      rfl
    rw [htext, blank_blockComment, blockBody_encode closed, filter_newline_encode, Comment.blanked,
      encode_append, List.append_assoc]
    rfl

/-! ### Literals and urls -/

theorem isQuote_quote (quote : Quote) : isQuote (octet quote.char) = true := by
  cases quote <;> rfl

theorem quote_lt (quote : Quote) : quote.char.toNat < 0x80 := by
  cases quote <;> decide

theorem mem_quotes (quote : Quote) : quote.char ∈ quotes := by
  cases quote <;> decide

/-- A literal ends at the quote after its body. -/
theorem literalTail_encode {quote : Quote} {body : Text} (h : Enclosed quote body) (rest : Bytes) :
    literalTail (octet quote.char) (encode body ++ octet quote.char :: rest)
      = (encode body ++ [octet quote.char], rest) := by
  induction h with
  | nil => cases quote <;> exact literalTail_quote (by decide) (by decide) rest
  | @plain c text hquote hslash hline _ ih =>
    have hne : ∀ b ∈ String.utf8EncodeChar c,
        b ≠ backslash ∧ b ≠ newline ∧ b ≠ octet quote.char := fun b hb =>
      ⟨ne_octet_of_mem_char (d := '\\') (by decide) hslash b hb,
        ne_octet_of_mem_char (d := '\n') (by decide) hline b hb,
        ne_octet_of_mem_char (quote_lt quote) hquote b hb⟩
    rw [encode_cons, List.append_assoc, literalTail_append_of_ne hne, ih, List.append_assoc]
  | @escaped c text _ ih =>
    -- The backslash takes the first octet along, and the others are not ASCII.
    have hne : ∀ b ∈ (String.utf8EncodeChar c).tail,
        b ≠ backslash ∧ b ≠ newline ∧ b ≠ octet quote.char := fun b hb =>
      have hhigh := le_of_mem_tail_utf8EncodeChar hb
      ⟨ne_of_high (by decide) hhigh, ne_of_high (by decide) hhigh,
        ne_of_high (by cases quote <;> decide) hhigh⟩
    rw [encode_cons_of_lt (by decide), encode_cons]
    cases hbytes : String.utf8EncodeChar c with
    | nil => exact absurd hbytes String.utf8EncodeChar_ne_nil
    | cons e others =>
      rw [hbytes, List.tail_cons] at hne
      have htail := literalTail_append_of_ne hne (encode text ++ octet quote.char :: rest)
      rw [List.cons_append, List.cons_append, List.cons_append, List.append_assoc,
        literalTail.eq_def]
      simp only [show octet '\\' = backslash from rfl, ↓reduceIte]
      rw [htail, ih]
      simp

theorem encode_quoted (quote : Quote) (body : Text) :
    encode (quote.char :: (body ++ [quote.char]))
      = octet quote.char :: (encode body ++ [octet quote.char]) := by
  rw [encode_cons_of_lt (quote_lt quote), encode_append, encode_cons_of_lt (quote_lt quote)]
  rfl

theorem encode_literal_append (literal : Literal) (rest : Bytes) :
    encode literal.text ++ rest
      = octet literal.quote.char :: (encode literal.body ++ octet literal.quote.char :: rest) := by
  rw [Literal.text, encode_quoted, List.cons_append, List.append_assoc]
  rfl

theorem blanks_literal (literal : Literal) : Blanks literal.text literal.text := by
  intro rest
  rw [encode_literal_append, blank_literal (isQuote_quote _)
    (literalTail_encode literal.enclosed rest), Literal.text, encode_quoted]

theorem urlOpening_lt : ∀ c ∈ urlOpening, c.toNat < 0x80 := forall_mem_of_all (by decide)

theorem afterWord?_opening {opening : Text} (h : opening.map Char.toLower = urlOpening)
    (bytes : Bytes) : afterWord? urlWord (encode opening ++ bytes) = some bytes :=
  afterWord?_encode_of_eq urlOpening_lt h bytes

/-- The value of a url ends at the first closing parenthesis. -/
theorem dropWhile_url {body : Text} (h : ')' ∉ body) (rest : Bytes) :
    (encode body ++ closeParen :: rest).dropWhile (· ≠ closeParen) = closeParen :: rest :=
  dropWhile_append_stop
    (fun b hb => decide_eq_true (ne_octet_of_mem_encode (d := ')') (by decide) h b hb)) (by simp)

theorem urlValue_encode {body : Text} (h : ')' ∉ body) (rest : Bytes) :
    urlValue (encode body ++ closeParen :: rest) = encode body :=
  takeWhile_append_stop
    (fun b hb => decide_eq_true (ne_octet_of_mem_encode (d := ')') (by decide) h b hb)) (by simp)

theorem encode_url (opening body : Text) (rest : Bytes) :
    encode (opening ++ (body ++ [')'])) ++ rest
      = encode opening ++ (encode body ++ closeParen :: rest) := by
  rw [encode_append, encode_append, List.append_assoc, List.append_assoc]
  rfl

theorem exists_opening {opening : Text} (h : opening.map Char.toLower = urlOpening) :
    ∃ c others, opening = c :: others ∧ c.toLower = 'u' := by
  cases opening with
  | nil => cases h
  | cons c others => exact ⟨c, others, rfl, (List.cons.inj h).1⟩

theorem blanks_url {opening body : Text} (hopening : opening.map Char.toLower = urlOpening)
    (hbody : ')' ∉ body) : Blanks (opening ++ (body ++ [')'])) (opening ++ (body ++ [')'])) := by
  intro rest
  have hword := afterWord?_opening hopening (encode body ++ closeParen :: rest)
  have htake : (encode opening ++ (encode body ++ closeParen :: rest)).take urlWord.length
      = encode opening :=
    (List.append_cancel_right (eq_append_of_afterWord? hword)).symm
  rw [encode_url, encode_url, blank_url hword, htake, urlValue_encode hbody, afterUrl,
    dropWhile_url hbody]
  simp

/-! ### Runs -/

/-- The octets do not go on with `url(`. -/
def Unglued (bytes : Bytes) : Prop := ∀ b ∈ bytes.head?, lower b ∉ urlWord.tail

theorem unglued_nil : Unglued [] := fun _ h => by cases h

theorem unglued_encode_cons {c : Char} (hc : c.toNat < 0x80) (h : c.toLower ∉ urlOpening.tail)
    (text : Text) (bytes : Bytes) : Unglued (encode (c :: text) ++ bytes) := by
  rw [encode_cons_of_lt hc]
  intro b hb
  obtain rfl : octet c = b := Option.some.inj hb
  revert h
  exact forall_ascii (p := fun c => c.toLower ∉ urlOpening.tail → lower (octet c) ∉ urlWord.tail)
    (by decide) hc

/-- A run holds no `url(`, and what follows it does not complete one that the run begins. -/
theorem afterWord?_run {c : Char} {text : Text}
    (h : ¬ urlOpening <+: (c :: text).map Char.toLower) {rest : Bytes} (hrest : Unglued rest) :
    afterWord? urlWord (encode (c :: text) ++ rest) = none := by
  by_cases hc : c.toLower = 'u'
  · have hlt : c.toNat < 0x80 := lt_of_toLower_lt (hc ▸ by decide)
    have hletter : lower (octet c) = 0x75 := (lower_octet hlt).trans (congrArg octet hc)
    rw [encode_cons_of_lt hlt, List.cons_append, urlWord, afterWord?, if_pos hletter]
    refine afterWord?_encode_eq_none (fun d hd => urlOpening_lt d (List.mem_of_mem_tail hd))
      (fun hprefix => h ?_) (fun b hb d hd heq => hrest b hb ?_)
    · rw [List.map_cons, hc]
      exact (List.prefix_cons_inj 'u').2 hprefix
    · rw [heq]
      exact List.mem_map_of_mem (f := octet) hd
  · exact afterWord?_cons_eq_none (by decide) hc _ _ _

/-- A run is kept, if what follows it does not go on with `url(`. -/
theorem blank_run {text : Text} (hplain : ∀ c ∈ text, c ∉ quotes ∧ c ≠ '/')
    (hurl : ¬ urlOpening <:+: text.map Char.toLower) {rest : Bytes} (hrest : Unglued rest) :
    blank (encode text ++ rest) = encode text ++ blank rest := by
  induction text with
  | nil => rfl
  | cons c text ih =>
    have ih := ih (fun d hd => hplain d (List.mem_cons_of_mem _ hd))
      (fun hinfix => hurl (List.infix_cons hinfix))
    have hword := afterWord?_run (fun hprefix => hurl hprefix.isInfix) hrest
    obtain ⟨hquote, hslash⟩ := hplain c List.mem_cons_self
    rcases Nat.lt_or_ge c.toNat 0x80 with hlt | hge
    · rw [encode_cons_of_lt hlt, List.cons_append] at hword ⊢
      rw [blank_cons_of_plain _ hword _, ih, List.cons_append]
      · rw [isQuote_octet hlt, Bool.or_eq_false_iff, beq_eq_false_iff_ne, beq_eq_false_iff_ne]
        exact ⟨fun heq => hquote (heq ▸ by decide), fun heq => hquote (heq ▸ by decide)⟩
      · exact fun heq => hslash (octet_injective hlt (by decide) heq)
    · rw [encode_cons, List.append_assoc, List.append_assoc, ← ih]
      exact blank_append_of_plain
        (fun b hb => beginsNoPiece_of_le (le_of_mem_utf8EncodeChar hge hb)) _

/-! ## Statements -/

theorem spaces_plain : ∀ c ∈ spaces, c ∉ quotes ∧ c.toLower ≠ 'u' ∧ c ≠ '/' :=
  forall_mem_of_all (by decide)

theorem blanks_gap (gap : Gap) : Blanks gap.text gap.blanked := by
  refine Blanks.flatMap fun part _ => ?_
  cases part with
  | space c h =>
    refine blanks_of_plain fun d hd => ?_
    obtain rfl : d = c := List.mem_singleton.1 hd
    exact spaces_plain d h
  | comment comment => exact blanks_comment comment

theorem enclosed_of_ne {quote : Quote} {name : Text}
    (h : ∀ c ∈ name, c ≠ quote.char ∧ c ≠ '\\' ∧ c ≠ '\n') : Enclosed quote name := by
  induction name with
  | nil => exact .nil
  | cons c name ih =>
    obtain ⟨hquote, hslash, hline⟩ := h c List.mem_cons_self
    refine .plain hquote hslash hline (ih fun d hd => ?_)
    exact h d (List.mem_cons_of_mem _ hd)

theorem enclosed_of_plain {quote : Quote} {name : Text}
    (h : ∀ c ∈ name, c ∉ quotes ∧ c ≠ '\\' ∧ c ≠ '\n') : Enclosed quote name := by
  apply enclosed_of_ne
  intro c hc
  obtain ⟨hquote, hplain⟩ := h c hc
  exact ⟨fun heq => hquote (heq ▸ mem_quotes quote), hplain⟩

/-- What stands between the parentheses of a url holds no parenthesis that closes it. -/
theorem closeParen_notMem {before inner after : Text}
    (hblank : ∀ c ∈ before ++ after, Text.isBlank c = true) (hinner : ')' ∉ inner) :
    ')' ∉ before ++ inner ++ after := by
  have hends : ')' ∉ before ++ after := fun hmem => absurd (hblank ')' hmem) (by decide)
  rw [List.mem_append] at hends
  rw [List.mem_append, List.mem_append]
  rintro ((hmem | hmem) | hmem)
  · exact hends (Or.inl hmem)
  · exact hinner hmem
  · exact hends (Or.inr hmem)

theorem closeParen_notMem_quoted {name : Text} (quote : Quote)
    (h : ∀ c ∈ name, c ∉ quotes ∧ c ≠ ')') : ')' ∉ quote.char :: (name ++ [quote.char]) := by
  have hquote : ')' ≠ quote.char := by cases quote <;> decide
  simp only [List.mem_cons, List.mem_append, List.not_mem_nil, or_false]
  rintro (hmem | hmem | hmem)
  · exact hquote hmem
  · exact (h ')' hmem).2 rfl
  · exact hquote hmem

theorem blanks_target (target : Target) : Blanks target.text target.text := by
  cases target with
  | quoted quote name _ plain => exact blanks_literal ⟨quote, name, enclosed_of_plain plain⟩
  | url opening before name after _ isOpening blank plain _ =>
    exact blanks_url isOpening (closeParen_notMem blank fun hmem => (plain ')' hmem).2 rfl)
  | quotedUrl opening before quote name after _ isOpening blank plain =>
    exact blanks_url isOpening (closeParen_notMem blank (closeParen_notMem_quoted quote plain))

theorem blanks_comma : Blanks [','] [','] := blanks_of_plain (forall_mem_of_all (by decide))

theorem blanks_entry (entry : Entry) : Blanks entry.text entry.blanked :=
  (blanks_gap entry.before).append (blanks_comma.append
    ((blanks_gap entry.after).append (blanks_target entry.target)))

/-- Nothing but a run goes on with `url(`. -/
theorem unglued_mediaPart {part : MediaPart} (h : part.isRun = false) (rest : Bytes) :
    Unglued (encode part.text ++ rest) := by
  cases part with
  | run run => cases h
  | literal literal =>
    exact unglued_encode_cons (quote_lt _) (by cases literal.quote <;> decide) _ rest
  | comment comment =>
    cases comment <;> exact unglued_encode_cons (by decide) (by decide) _ rest
  | url opening body isOpening _ =>
    obtain ⟨c, others, rfl, hc⟩ := exists_opening isOpening
    exact unglued_encode_cons (lt_of_toLower_lt (hc ▸ by decide)) (hc ▸ by decide) _ rest

/-- Two runs do not meet, so no part of a media text completes a `url(` that the one before it
begins. -/
theorem blank_mediaParts {parts : List MediaPart}
    (h : parts.IsChain fun part next => ¬ (part.isRun = true ∧ next.isRun = true)) {rest : Bytes}
    (hrest : Unglued rest) :
    blank (encode (parts.flatMap MediaPart.text) ++ rest)
      = encode (parts.flatMap MediaPart.blanked) ++ blank rest := by
  induction parts with
  | nil => rfl
  | cons part parts ih =>
    have ih := ih h.of_cons
    rw [List.flatMap_cons, List.flatMap_cons, encode_append, encode_append, List.append_assoc,
      List.append_assoc, ← ih]
    cases part with
    | run run =>
      refine blank_run run.plain run.noUrl ?_
      cases parts with
      | nil => exact hrest
      | cons next parts =>
        have hnext : next.isRun = false := by
          simpa [MediaPart.isRun] using (List.isChain_cons_cons.1 h).1
        rw [List.flatMap_cons, encode_append, List.append_assoc]
        exact unglued_mediaPart hnext _
    | literal literal => exact blanks_literal literal _
    | comment comment => exact blanks_comment comment _
    | url opening body isOpening hbody => exact blanks_url isOpening hbody _

theorem marks_plain : ∀ c ∈ marks, c ∉ quotes ∧ c.toLower ≠ 'u' ∧ c ≠ '/' :=
  forall_mem_of_all (by decide)

theorem marks_unglued : ∀ c ∈ marks, c.toNat < 0x80 ∧ c.toLower ∉ urlOpening.tail :=
  forall_mem_of_all (by decide)

theorem blanks_ending (ending : Ending) : Blanks ending.text ending.blanked := by
  cases ending with
  | mark c h =>
    refine blanks_of_plain fun d hd => ?_
    obtain rfl : d = c := List.mem_singleton.1 hd
    exact marks_plain d h
  | lineComment body oneLine => exact blanks_comment (.line body oneLine)
  | endOfText => exact Blanks.nil

theorem unglued_ending {ending : Ending} {rest : Bytes} (h : ending = .endOfText → rest = []) :
    Unglued (encode ending.text ++ rest) := by
  cases ending with
  | mark c hc => exact unglued_encode_cons (marks_unglued c hc).1 (marks_unglued c hc).2 _ rest
  | lineComment body oneLine => exact unglued_encode_cons (by decide) (by decide) _ rest
  | endOfText =>
    obtain rfl := h rfl
    exact unglued_nil

theorem blanks_keyword {keyword : Text} (h : keyword.map Char.toLower = importKeyword) :
    Blanks ('@' :: keyword) ('@' :: keyword) := by
  refine blanks_of_plain fun c hc => ?_
  rcases List.mem_cons.1 hc with rfl | hc
  · decide
  · have hlower : c.toLower ∈ importKeyword := h ▸ List.mem_map_of_mem hc
    refine ⟨?_, ?_, ?_⟩
    · intro hquote
      have hother : ∀ c ∈ quotes, c.toLower ∉ importKeyword := forall_mem_of_all (by decide)
      exact hother c hquote hlower
    · intro hletter
      rw [hletter] at hlower
      exact absurd hlower (by decide)
    · rintro rfl
      exact absurd hlower (by decide)

/-- The keyword, the targets and what stands between them, up to the media text. -/
theorem blanks_head (statement : Import) :
    Blanks ('@' :: statement.keyword ++ statement.gap.text ++ statement.first.text
        ++ statement.others.flatMap Entry.text ++ statement.tail.text)
      ('@' :: statement.keyword ++ statement.gap.blanked ++ statement.first.text
        ++ statement.others.flatMap Entry.blanked ++ statement.tail.blanked) := by
  have hkeyword := (blanks_keyword statement.isKeyword).append (blanks_gap statement.gap)
  have hfirst := hkeyword.append (blanks_target statement.first)
  exact (hfirst.append (Blanks.flatMap fun entry _ => blanks_entry entry)).append
    (blanks_gap statement.tail)

theorem blank_media (media : Option Media) {rest : Bytes} (hrest : Unglued rest) :
    blank (encode (media.elim [] Media.text) ++ rest)
      = encode (media.elim [] Media.blanked) ++ blank rest := by
  cases media with
  | none => rfl
  | some media => exact blank_mediaParts media.apart hrest

/-- A statement that ends with the text has nothing behind it; the others bring an ending that
cannot go on with `url(`. -/
theorem blank_statement (statement : Import) {rest : Bytes}
    (hrest : statement.ending = .endOfText → rest = []) :
    blank (encode statement.text ++ rest) = encode statement.blanked ++ blank rest := by
  rw [Import.text, Import.blanked, encode_append, encode_append, List.append_assoc,
    List.append_assoc, blanks_head, blank_media _ (unglued_ending hrest), blanks_ending]
  rw [← List.append_assoc, ← List.append_assoc, ← encode_append, ← encode_append]

/-! ## Documents -/

theorem unglued_item {item : Item} (h : item.isFiller = false) (rest : Bytes) :
    Unglued (encode item.text ++ rest) := by
  cases item with
  | filler run _ => cases h
  | comment comment =>
    cases comment <;> exact unglued_encode_cons (by decide) (by decide) _ rest
  | literal literal =>
    exact unglued_encode_cons (quote_lt _) (by cases literal.quote <;> decide) _ rest
  | statement statement => exact unglued_encode_cons (by decide) (by decide) _ rest

/-- Comments apart, what is left of the items of a document is what was written. -/
theorem blank_items {items : List Item} (h : WellFormed items) :
    blank (encode (items.flatMap Item.text)) = encode (items.flatMap Item.blanked) := by
  induction items with
  | nil => exact blank_nil
  | cons item items ih =>
    obtain ⟨hnext, hitems⟩ := h
    rw [List.flatMap_cons, List.flatMap_cons, encode_append, encode_append, ← ih hitems]
    cases item with
    | filler run _ =>
      refine blank_run run.plain run.noUrl ?_
      cases items with
      | nil => exact unglued_nil
      | cons next items =>
        rw [List.flatMap_cons, encode_append]
        exact unglued_item (hnext next rfl) _
    | comment comment => exact blanks_comment comment _
    | literal literal => exact blanks_literal literal _
    | statement statement =>
      refine blank_statement statement fun hending => ?_
      rw [hnext.1 hending]
      rfl

end SheetImports.Grammar
