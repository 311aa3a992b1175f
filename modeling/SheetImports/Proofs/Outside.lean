import SheetImports.Proofs.Comments
import SheetImports.Proofs.Slices

/-!
# Keywords outside literals

The first scan cuts a stylesheet into pieces, and the second scan goes through what is left of them.
In a stylesheet without urls the two agree on where a literal begins and ends, as long as the second
scan stands where a piece begins or in the blanks that are left of a comment (`Aligned`): literals
bring their own end along, and every step of the scan leads to such a place again. The one step that
may not is the one to the end of a statement, which is looked for without regard to literals
(`Aligned.terminator`). So a keyword is inside a literal only if a statement before it ends inside
one (`keyword_stands_outside`).
-/

namespace SheetImports.Stylesheet

open Utf8

/-! ## Texts without urls -/

/-- Nowhere in the octets does a url begin. -/
def UrlFree (bytes : Bytes) : Prop := ∀ rest, rest <:+ bytes → afterWord? urlWord rest = none

theorem UrlFree.of_suffix {bytes rest : Bytes} (h : UrlFree bytes) (hrest : rest <:+ bytes) :
    UrlFree rest :=
  fun _ hother => h _ (hother.trans hrest)

theorem lower_of_afterWord? {w b : UInt8} {word bytes after : Bytes}
    (h : afterWord? (w :: word) (b :: bytes) = some after) : lower b = w := by
  rw [afterWord?] at h
  split at h
  · assumption
  · cases h

theorem Partway.of_suffix {text : Text} {bytes rest : Bytes} (h : Partway bytes text)
    (hrest : rest <:+ bytes) : Partway rest text := by
  induction bytes with
  | nil => rwa [List.suffix_nil.1 hrest]
  | cons b bytes ih =>
    rcases List.suffix_cons_iff.1 hrest with rfl | hrest
    · exact h
    · exact ih h.tail hrest

/-- A text in which no `url(` is written has none among its octets. -/
theorem urlFree_encode {text : Text} (h : ¬ Grammar.urlOpening <:+: text.map Char.toLower) :
    UrlFree (encode text) := by
  intro rest hrest
  cases hword : afterWord? urlWord rest with
  | none => rfl
  | some after =>
    -- the word begins with an ASCII octet, so it stands in the text
    have hpart := (Partway.of_standsIn (.whole text)).of_suffix hrest
    obtain ⟨before, behind, rfl, rfl⟩ : StandsIn rest text := by
      cases rest with
      | nil => cases hword
      | cons b rest =>
        apply hpart.standsIn
        apply lt_of_lower_lt
        rw [lower_of_afterWord? hword]
        decide
    have hnot : ¬ Grammar.urlOpening <+: behind.map Char.toLower := by
      intro hprefix
      apply h
      rw [List.map_append]
      exact List.IsInfix.trans hprefix.isInfix (List.IsSuffix.isInfix (List.suffix_append _ _))
    have hnone : afterWord? urlWord (encode behind ++ []) = none :=
      afterWord?_encode_eq_none Grammar.urlOpening_lt hnot fun b hb => by cases hb
    rw [List.append_nil] at hnone
    exact absurd (hnone.symm.trans hword) (Option.some_ne_none after).symm

/-! ## What a blanked text begins with -/

/-- A piece where no url begins is a literal, a comment or one octet; a line comment ends the text
or leaves a line feed behind it. -/
theorem next_cases {b : UInt8} {bytes : Bytes} (hurl : afterWord? urlWord (b :: bytes) = none) :
    (isQuote b = true ∧
        next b bytes = (.literal (b :: (literalTail b bytes).1), (literalTail b bytes).2)) ∨
      (∃ body, next b bytes = (.lineComment body, [])) ∨
      (∃ body rest, next b bytes = (.lineComment body, newline :: rest)) ∨
      (∃ body closed rest, next b bytes = (.blockComment body closed, rest)) ∨
      (isQuote b = false ∧ next b bytes = (.plain b, bytes)) := by
  unfold next
  split
  next hquote => exact .inl ⟨hquote, rfl⟩
  next hquote =>
    right
    rw [hurl]
    simp only
    split
    next =>
      rcases dropWhile_ne_cases newline (bytes.drop 1) with hrest | ⟨rest, hrest⟩
      · rw [hrest]
        exact .inl ⟨_, rfl⟩
      · rw [hrest]
        exact .inr (.inl ⟨_, rest, rfl⟩)
    next =>
      right
      right
      split
      · exact .inl ⟨_, _, _, rfl⟩
      · exact .inr ⟨eq_false_of_ne_true hquote, rfl⟩

theorem literalTail_blank (quote : UInt8) (bytes : Bytes) :
    literalTail quote ((literalTail quote bytes).1 ++ blank (literalTail quote bytes).2)
      = ((literalTail quote bytes).1, blank (literalTail quote bytes).2) := by
  fun_induction literalTail quote bytes with
  | case1 => rw [blank_nil]; rfl
  | case2 => rw [blank_nil]; rfl
  | case3 e bytes ih => simp only [List.cons_append, literalTail, ↓reduceIte, ih]
  | case4 bytes =>
    rw [blank_cons, next_of_plain (by decide), List.nil_append, literalTail.eq_def]
    rfl
  | case5 bytes hslash hline => exact literalTail_quote hslash hline _
  | case6 b bytes hslash hline hquote ih =>
    rw [List.cons_append, literalTail_cons hslash hline hquote, ih]

theorem isGap_of_mem_blanked (body : Bytes) (closed : Bool) :
    ∀ b ∈ (Piece.blockComment body closed).blanked, isGap b = true := by
  intro b hb
  rcases List.mem_append.1 hb with hb | hb
  · rw [eq_of_beq (List.mem_filter.1 hb).2]
    rfl
  · rw [List.mem_singleton.1 hb]
    rfl

/-- How octets without urls begin where what is left of them begins with the octet `b`: with a
literal, or with pieces of which nothing is left but that octet and blanks. -/
inductive Begins (source : Bytes) (b : UInt8) : Bytes → Prop
  | literal {bytes : Bytes} (hquote : isQuote b = true) (hsource : source = b :: bytes) :
      Begins source b ((literalTail b bytes).1 ++ blank (literalTail b bytes).2)
  | other {first : List Piece} {gaps rest : Bytes} (hquote : isQuote b = false)
      (hpieces : pieces source = first ++ pieces rest) (hsuffix : rest <:+ source)
      (hblanked : first.flatMap Piece.blanked = b :: gaps) (hgaps : ∀ d ∈ gaps, isGap d = true)
      (hplain : isGap b = false → source = b :: rest ∧ first = [.plain b]) :
      Begins source b (gaps ++ blank rest)

/-- What begins the blanked text tells how the text begins. -/
theorem begins_of_blank {source bytes : Bytes} {b : UInt8} (hfree : UrlFree source)
    (h : blank source = b :: bytes) : Begins source b bytes := by
  cases source with
  | nil =>
    rw [blank_nil] at h
    cases h
  | cons c source =>
    have hcut := pieces_cons c source
    have hsuffix : (next c source).2 <:+ c :: source := ⟨_, source_next_append c source⟩
    rw [blank_cons] at h
    rcases next_cases (hfree _ (List.suffix_refl _)) with
      ⟨hquote, hnext⟩ | ⟨body, hnext⟩ | ⟨body, rest, hnext⟩ | ⟨body, closed, rest, hnext⟩
        | ⟨hquote, hnext⟩ <;> rw [hnext] at h hcut hsuffix
    · obtain ⟨rfl, rfl⟩ := List.cons.inj h
      exact .literal hquote rfl
    · exact absurd (blank_nil.symm.trans h) (List.cons_ne_nil b bytes).symm
    · -- of a line comment and the line feed behind it, the line feed is left
      have hline : next newline rest = (.plain newline, rest) := next_of_plain (by decide) rest
      rw [blank_cons, hline] at h
      rw [pieces_cons newline rest, hline] at hcut
      obtain ⟨rfl, rfl⟩ := List.cons.inj h
      have hpieces : pieces (c :: source) = [.lineComment body, .plain newline] ++ pieces rest :=
        hcut
      rw [← List.nil_append (blank rest)]
      exact .other (by decide) hpieces ((List.suffix_cons newline rest).trans hsuffix) rfl
        (fun d hd => absurd hd List.not_mem_nil) (fun hgap => by cases hgap)
    · have hgaps := isGap_of_mem_blanked body closed
      cases hleft : (Piece.blockComment body closed).blanked with
      | nil => exact absurd hleft (by simp [Piece.blanked])
      | cons d gaps =>
        rw [hleft] at h hgaps
        obtain ⟨rfl, rfl⟩ := List.cons.inj h
        have hgap := hgaps d List.mem_cons_self
        have hpieces : pieces (c :: source) = [.blockComment body closed] ++ pieces rest := hcut
        refine .other (isQuote_of_isGap hgap) hpieces hsuffix ?_
          (fun e he => hgaps e (List.mem_cons_of_mem _ he)) (fun hnot => by simp [hgap] at hnot)
        rw [List.flatMap_singleton, hleft]
    · obtain ⟨rfl, rfl⟩ := List.cons.inj h
      have hpieces : pieces (c :: source) = [.plain c] ++ pieces source := hcut
      rw [← List.nil_append (blank (Piece.plain c, source).2)]
      exact .other hquote hpieces (List.suffix_cons c source) rfl
        (fun d hd => absurd hd List.not_mem_nil) fun _ => ⟨rfl, rfl⟩

/-- A word without quotes and gaps is not put together from two sides of a comment. -/
theorem afterWord?_of_blank {word source after : Bytes} (hfree : UrlFree source)
    (hword : ∀ b, lower b ∈ word → isQuote b = false ∧ isGap b = false)
    (h : afterWord? word (blank source) = some after) :
    ∃ rest, afterWord? word source = some rest := by
  induction word generalizing source with
  | nil => exact ⟨source, rfl⟩
  | cons w word ih =>
    cases hblank : blank source with
    | nil =>
      rw [hblank] at h
      cases h
    | cons b bytes =>
      rw [hblank, afterWord?] at h
      split at h
      next hb =>
        obtain ⟨hquote, hgap⟩ := hword b (by rw [hb]; exact List.mem_cons_self)
        cases begins_of_blank hfree hblank with
        | literal hopen => exact absurd (hquote.symm.trans hopen) (by decide)
        | other _ _ hsuffix hblanked _ hplain =>
          obtain ⟨rfl, rfl⟩ := hplain hgap
          obtain ⟨-, rfl⟩ := List.cons.inj hblanked
          rw [afterWord?, if_pos hb]
          exact ih (hfree.of_suffix hsuffix) (fun d hd => hword d (List.mem_cons_of_mem _ hd)) h
      next => cases h

/-! ## Where the second scan stands -/

/-- The piece of which an octet of the blanked text is left. -/
def pieceAt : List Piece → Nat → Option Piece
  | [], _ => none
  | piece :: cut, position =>
    if position < piece.blanked.length then some piece
    else pieceAt cut (position - piece.blanked.length)

theorem pieceAt_append (first : List Piece) {piece : Piece} (rest : List Piece) {k : Nat}
    (hk : k < piece.blanked.length) :
    pieceAt (first ++ piece :: rest) ((first.flatMap Piece.blanked).length + k) = some piece := by
  induction first with
  | nil =>
    rw [List.nil_append, List.flatMap_nil, List.length_nil, Nat.zero_add, pieceAt, if_pos hk]
  | cons other first ih =>
    have hnot : ¬ other.blanked.length + (first.flatMap Piece.blanked).length + k
        < other.blanked.length := by omega
    rw [List.cons_append, List.flatMap_cons, List.length_append, pieceAt, if_neg hnot,
      Nat.add_assoc, Nat.add_sub_cancel_left, ih]

/-- The octets are what is left from the beginning of a piece on, or from inside the blanks that are
left of a comment before it. -/
def Aligned (cut : List Piece) (bytes : Bytes) : Prop :=
  ∃ first source gaps, cut = first ++ pieces source ∧ UrlFree source ∧
    gaps <:+ first.flatMap Piece.blanked ∧ (∀ b ∈ gaps, isGap b = true) ∧
    bytes = gaps ++ blank source

namespace Aligned

variable {cut : List Piece} {b : UInt8} {bytes : Bytes}

theorem of_pieces {first : List Piece} {source : Bytes} (hcut : cut = first ++ pieces source)
    (hfree : UrlFree source) : Aligned cut (blank source) :=
  ⟨first, source, [], hcut, hfree, List.nil_suffix, fun _ hb => absurd hb List.not_mem_nil, rfl⟩

/-- What the scan finds where it is aligned: a blank, or what begins a piece. -/
theorem head_cases (h : Aligned cut (b :: bytes)) :
    (isGap b = true ∧ Aligned cut bytes) ∨
      ∃ first source, cut = first ++ pieces source ∧ UrlFree source ∧
        blank source = b :: bytes := by
  obtain ⟨first, source, gaps, hcut, hfree, hsuffix, hgaps, hbytes⟩ := h
  cases gaps with
  | nil => exact .inr ⟨first, source, hcut, hfree, hbytes.symm⟩
  | cons d gaps =>
    obtain ⟨rfl, rfl⟩ := List.cons.inj hbytes
    exact .inl ⟨hgaps b List.mem_cons_self, first, source, gaps, hcut, hfree,
      (List.suffix_cons b gaps).trans hsuffix,
      fun e he => hgaps e (List.mem_cons_of_mem _ he), rfl⟩

/-- Past an octet that opens no literal, the scan stays aligned. -/
theorem tail (h : Aligned cut (b :: bytes)) (hquote : isQuote b = false) : Aligned cut bytes := by
  rcases h.head_cases with ⟨-, htail⟩ | ⟨first, source, rfl, hfree, hblank⟩
  · exact htail
  · cases begins_of_blank hfree hblank with
    | literal hopen => exact absurd (hquote.symm.trans hopen) (by decide)
    | @other others gaps rest _ hpieces hsuffix hblanked hgaps _ =>
      refine ⟨first ++ others, rest, gaps, ?_, hfree.of_suffix hsuffix, ?_, hgaps, rfl⟩
      · rw [hpieces, List.append_assoc]
      · rw [List.flatMap_append, hblanked]
        exact (List.suffix_cons b gaps).trans (List.suffix_append _ _)

/-- A literal that the second scan finds is one that the first scan cut. -/
theorem literal (h : Aligned cut (b :: bytes)) (hquote : isQuote b = true) :
    Aligned cut (literalTail b bytes).2 ∧
      ∃ first rest, cut = first ++ .literal (b :: (literalTail b bytes).1) :: rest ∧
        (cut.flatMap Piece.blanked).length
          = (first.flatMap Piece.blanked).length + (b :: bytes).length := by
  rcases h.head_cases with ⟨hgap, -⟩ | ⟨first, source, rfl, hfree, hblank⟩
  · exact absurd ((isQuote_of_isGap hgap).symm.trans hquote) (by decide)
  · have hlength : ((first ++ pieces source).flatMap Piece.blanked).length
        = (first.flatMap Piece.blanked).length + (b :: bytes).length := by
      rw [List.flatMap_append, List.length_append]
      exact congrArg (_ + ·) (congrArg List.length hblank)
    rw [hlength]
    cases begins_of_blank hfree hblank with
    | other hnot => exact absurd (hnot.symm.trans hquote) (by decide)
    | @literal bytes _ hsource =>
      have hnext : next b bytes
          = (.literal (b :: (literalTail b bytes).1), (literalTail b bytes).2) := by
        rw [next, if_pos hquote]
      have hpieces : first ++ pieces source = first
          ++ .literal (b :: (literalTail b bytes).1) :: pieces (literalTail b bytes).2 := by
        rw [hsource, pieces_cons, hnext]
      have hsuffix : (literalTail b bytes).2 <:+ source := by
        rw [hsource]
        exact List.IsSuffix.trans ⟨_, literalTail_append b bytes⟩ (List.suffix_cons b bytes)
      rw [literalTail_blank]
      exact ⟨of_pieces (hpieces.trans (List.append_cons _ _ _)) (hfree.of_suffix hsuffix),
        first, _, hpieces, rfl⟩

/-- An octet that is no quote and no blank was cut on its own. -/
theorem pieceAt_eq (h : Aligned cut (b :: bytes)) (hquote : isQuote b = false)
    (hgap : isGap b = false) :
    pieceAt cut ((cut.flatMap Piece.blanked).length - (b :: bytes).length) = some (.plain b) := by
  rcases h.head_cases with ⟨hgap', -⟩ | ⟨first, source, rfl, hfree, hblank⟩
  · exact absurd (hgap.symm.trans hgap') (by decide)
  · have hposition : ((first ++ pieces source).flatMap Piece.blanked).length - (b :: bytes).length
        = (first.flatMap Piece.blanked).length + 0 := by
      rw [List.flatMap_append, List.length_append, ← hblank, blank, Nat.add_sub_cancel,
        Nat.add_zero]
    rw [hposition]
    cases begins_of_blank hfree hblank with
    | literal hopen => exact absurd (hquote.symm.trans hopen) (by decide)
    | other _ hpieces _ _ _ hplain =>
      obtain ⟨-, rfl⟩ := hplain hgap
      rw [hpieces]
      exact pieceAt_append first _ Nat.one_pos

theorem afterUrl_eq_none (h : Aligned cut (b :: bytes)) :
    Stylesheet.afterWord? urlWord (b :: bytes) = none := by
  cases hword : Stylesheet.afterWord? urlWord (b :: bytes) with
  | none => rfl
  | some after =>
    have hplain : ∀ d, lower d ∈ urlWord → isQuote d = false ∧ isGap d = false := fun d hd =>
      plain_of_lower (List.mem_append_left _ hd)
    rcases h.head_cases with ⟨hgap, -⟩ | ⟨first, source, -, hfree, hblank⟩
    · have hb : lower b ∈ urlWord := by
        rw [lower_of_afterWord? hword]
        decide
      exact absurd ((hplain b hb).2.symm.trans hgap) (by decide)
    · rw [← hblank] at hword
      obtain ⟨rest, hrest⟩ := afterWord?_of_blank hfree hplain hword
      exact absurd ((hfree source (List.suffix_refl _)).symm.trans hrest) (by simp)

/-- Every step of the scan leads from where it is aligned to where it is aligned. -/
theorem carried (cut : List Piece) : Carried (Aligned cut) where
  tail h hquote _ := h.tail hquote
  literal h hquote := (h.literal hquote).1
  url {bytes after} h hafter := by
    cases bytes with
    | nil => cases hafter
    | cons b bytes =>
      rw [h.afterUrl_eq_none] at hafter
      cases hafter

end Aligned

/-- The octet at the position of the blanked text is one of a literal. -/
def InLiteral (cut : List Piece) (position : Nat) : Prop :=
  ∃ lexeme, pieceAt cut position = some (.literal lexeme)

namespace Aligned

variable {cut : List Piece} {b : UInt8} {bytes : Bytes}

/-- The end of a statement is looked for without regard to literals: it is inside one, or the scan
is aligned there. -/
theorem terminator (h : Aligned cut bytes) :
    InLiteral cut ((cut.flatMap Piece.blanked).length
        - (bytes.dropWhile (!isTerminator ·)).length) ∨
      Aligned cut (bytes.dropWhile (!isTerminator ·)) := by
  obtain ⟨n, hn⟩ : ∃ n, bytes.length < n := ⟨_, Nat.lt_succ_self _⟩
  induction n generalizing bytes with
  | zero => cases hn
  | succ n ih =>
    cases bytes with
    | nil => exact .inr h
    | cons b bytes =>
      cases hend : isTerminator b with
      | true =>
        rw [List.dropWhile_cons_of_neg (by simp [hend])]
        exact .inr h
      | false =>
        rw [List.dropWhile_cons_of_pos (by simp [hend])]
        cases hquote : isQuote b with
        | false => exact ih (h.tail hquote) (Nat.lt_of_succ_lt_succ hn)
        | true =>
          obtain ⟨hafter, first, rest, hcut, hsize⟩ := h.literal hquote
          have hsplit := literalTail_append b bytes
          cases hstop : (literalTail b bytes).1.dropWhile (!isTerminator ·) with
          | nil =>
            -- the literal holds no terminator, and the search goes on behind it
            have hpass : bytes.dropWhile (!isTerminator ·)
                = (literalTail b bytes).2.dropWhile (!isTerminator ·) := by
              conv_lhs => rw [← hsplit]
              exact List.dropWhile_append_of_pos (List.dropWhile_eq_nil_iff.1 hstop)
            have hshort := length_literalTail_le b bytes
            rw [hpass]
            exact ih hafter (by rw [List.length_cons] at hn; omega)
          | cons d others =>
            left
            have hpass : bytes.dropWhile (!isTerminator ·)
                = d :: others ++ (literalTail b bytes).2 := by
              conv_lhs => rw [← hsplit]
              rw [List.dropWhile_append, hstop]
              rfl
            have hlexeme := congrArg List.length
              (List.takeWhile_append_dropWhile (p := (!isTerminator ·))
                (l := (literalTail b bytes).1))
            have hlength := congrArg List.length hsplit
            rw [hstop, List.length_append, List.length_cons] at hlexeme
            rw [List.length_append] at hlength
            rw [hpass, hsize, hcut]
            refine ⟨b :: (literalTail b bytes).1, ?_⟩
            have hposition : (first.flatMap Piece.blanked).length + (b :: bytes).length
                  - (d :: others ++ (literalTail b bytes).2).length
                = (first.flatMap Piece.blanked).length
                  + (1 + ((literalTail b bytes).1.takeWhile (!isTerminator ·)).length) := by
              rw [List.length_append, List.length_cons, List.length_cons]
              omega
            rw [hposition]
            refine pieceAt_append first rest ?_
            rw [Piece.blanked, List.length_cons]
            omega

/-- An aligned scan has the end of the blanked text in front of it. -/
theorem suffix (h : Aligned cut bytes) : bytes <:+ cut.flatMap Piece.blanked := by
  obtain ⟨first, source, gaps, rfl, -, ⟨before, hbefore⟩, -, rfl⟩ := h
  refine ⟨before, ?_⟩
  rw [List.flatMap_append, ← hbefore, List.append_assoc]
  rfl

end Aligned

/-! ## Keywords -/

/-- The statement ends inside a literal. -/
def Statement.EndsInLiteral (statement : Statement) (cut : List Piece) : Prop :=
  InLiteral cut statement.media.slice.stop

theorem stop_statement {size keyword : Nat} {bytes : Bytes}
    (h : (targets size bytes).2.length ≤ size) :
    (statement size keyword bytes).media.slice.stop
      = size - ((targets size bytes).2.dropWhile (!isTerminator ·)).length := by
  have hsplit := congrArg List.length
    (List.takeWhile_append_dropWhile (p := (!isTerminator ·)) (l := (targets size bytes).2))
  rw [List.length_append] at hsplit
  rw [statement, Stretch.slice]
  show size - (targets size bytes).2.length
    + ((targets size bytes).2.takeWhile (!isTerminator ·)).length = _
  omega

/-- Up to a statement that ends inside a literal, the scan stays aligned at every keyword. -/
theorem pieceAt_keyword {cut : List Piece} {bytes : Bytes} (h : Aligned cut bytes)
    {earlier later : List Statement} {statement : Statement}
    (hstatements : statements (cut.flatMap Piece.blanked).length bytes
      = earlier ++ statement :: later)
    (hearlier : ∀ other ∈ earlier, ¬ other.EndsInLiteral cut) :
    pieceAt cut statement.keyword = some (.plain atSign) := by
  fun_induction statements (cut.flatMap Piece.blanked).length bytes generalizing earlier with
  | case1 => exact absurd hstatements (by simp)
  | case2 b bytes hquote ih => exact ih (h.literal hquote).1 hstatements hearlier
  | case3 b bytes _ after hafter _ ih =>
    have hcarried := Aligned.carried cut
    have hrest := hcarried.targets (cut.flatMap Piece.blanked).length
      (hcarried.afterImport? h hafter)
    cases earlier with
    | nil =>
      obtain rfl := (List.cons.inj hstatements).1
      have hat := eq_atSign_of_afterImport? hafter
      rw [← hat]
      exact h.pieceAt_eq (by rw [hat]; decide) (by rw [hat]; decide)
    | cons first earlier =>
      obtain ⟨rfl, hlater⟩ := List.cons.inj hstatements
      have hends := hearlier _ List.mem_cons_self
      rw [Statement.EndsInLiteral, stop_statement hrest.suffix.length_le] at hends
      rcases hrest.terminator with hin | haligned
      · exact absurd hin hends
      · exact ih (hcarried.afterStatement haligned) hlater
          fun other hother => hearlier other (List.mem_cons_of_mem _ hother)
  | case4 b bytes hquote _ ih =>
    exact ih (h.tail (eq_false_of_ne_true hquote)) hstatements hearlier

/-- In a stylesheet without urls the keyword of a statement is outside literals and comments, unless
a statement before it ends inside a literal. -/
theorem keyword_stands_outside {text : Text}
    (hurl : ¬ Grammar.urlOpening <:+: text.map Char.toLower) :
    imports text = (statements (blank (encode text)).length (blank (encode text))).flatMap
        (·.directives (blank (encode text))) ∧
      ∀ earlier statement later, statements (blank (encode text)).length (blank (encode text))
          = earlier ++ statement :: later →
        (∀ other ∈ earlier, ¬ other.EndsInLiteral (pieces (encode text))) →
        pieceAt (pieces (encode text)) statement.keyword = some (.plain atSign) :=
  ⟨rfl, fun _ _ _ => pieceAt_keyword
    (.of_pieces (List.nil_append _).symm (urlFree_encode hurl))⟩

/-- A literal that holds a statement stands between the targets of a statement and its end, another
one in a declaration. -/
def guardedSheet : Text :=
  "@import 'a' supports(x: \"@import 'b'\");\ni \x7bx: '@import \"c\"'\x7d @import 'd';".toList

def guardedFirst : Statement :=
  ⟨0, [⟨8, ⟨8, encode "'a'".toList⟩, false⟩], ⟨11, encode " supports(x: \"@import 'b'\")".toList⟩⟩

def guardedSecond : Statement :=
  ⟨61, [⟨69, ⟨69, encode "'d'".toList⟩, false⟩], ⟨72, []⟩⟩

theorem keyword_stands_outside_guarded :
    imports guardedSheet = [⟨"a".toList, 1, .plainCss⟩, ⟨"d".toList, 2, .stylesheet⟩] ∧
      statements (blank (encode guardedSheet)).length (blank (encode guardedSheet))
          = [guardedFirst] ++ guardedSecond :: [] ∧
      ¬ guardedFirst.EndsInLiteral (pieces (encode guardedSheet)) ∧
      pieceAt (pieces (encode guardedSheet)) guardedFirst.keyword = some (.plain atSign) ∧
      pieceAt (pieces (encode guardedSheet)) guardedSecond.keyword = some (.plain atSign) := by
  have hurl : ¬ Grammar.urlOpening <:+: guardedSheet.map Char.toLower := by decide +kernel
  have hstatements : statements (blank (encode guardedSheet)).length (blank (encode guardedSheet))
      = [guardedFirst] ++ guardedSecond :: [] := by decide +kernel
  have hends : ¬ guardedFirst.EndsInLiteral (pieces (encode guardedSheet)) := by
    have hstop : pieceAt (pieces (encode guardedSheet)) guardedFirst.media.slice.stop
        = some (.plain semicolon) := by decide +kernel
    intro ⟨lexeme, hlexeme⟩
    rw [hstop] at hlexeme
    cases hlexeme
  have houtside := (keyword_stands_outside hurl).2
  refine ⟨by decide +kernel, hstatements, hends, ?_, ?_⟩
  · apply houtside [] guardedFirst [guardedSecond] hstatements
    intro other hother
    cases hother
  · apply houtside [guardedFirst] guardedSecond [] hstatements
    intro other hother
    rw [List.mem_singleton.1 hother]
    exact hends

/-- A statement that ends inside a literal, at a semicolon. -/
def leakySheet : Text := "@import 'a' supports(content: \";@import 'b'\");".toList

/-- What stands behind the semicolon is read as a statement, though it is inside the literal. -/
theorem keyword_inside_literal :
    ¬ Grammar.urlOpening <:+: leakySheet.map Char.toLower ∧
      imports leakySheet = [⟨"a".toList, 1, .plainCss⟩, ⟨"b".toList, 1, .plainCss⟩] ∧
      ∃ statement ∈ statements (blank (encode leakySheet)).length (blank (encode leakySheet)),
        statement.directives (blank (encode leakySheet)) = [⟨"b".toList, 1, .plainCss⟩] ∧
        InLiteral (pieces (encode leakySheet)) statement.keyword := by
  refine ⟨by decide +kernel, by decide +kernel,
    ⟨32, [⟨40, ⟨40, encode "'b'".toList⟩, false⟩], ⟨43, encode "\")".toList⟩⟩, by decide +kernel,
    by decide +kernel, encode "\";@import 'b'\"".toList, by decide +kernel⟩

end SheetImports.Stylesheet
