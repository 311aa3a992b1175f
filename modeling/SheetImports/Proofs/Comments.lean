import SheetImports.Proofs.Blanking

/-!
# What comments say

A stylesheet is cut into pieces from left to right. Where a comment begins, the cut has seen nothing
of the comment but its first slash, so what stands before the comment is cut the same way whatever
the comment says (`pieces_before_slash`). What is left of the comment itself is one space or one
line feed and as many line feeds as it had. So two stylesheets that differ only in what a comment
says make the same imports (`imports_eq_of_alike`).
-/

namespace SheetImports.Stylesheet

open Utf8

/-!
## Scans that end before a slash

In each of these a scan of `x` ends at or before the slash that follows `x`, and leaves `y` of it.
Then it does not matter what stands behind the slash.
-/

section BeforeSlash

variable {x y t : Bytes} (t' : Bytes)

/-- What is no longer than the text behind the slash does not begin before it. -/
theorem ne_append_slash {rest : Bytes} (h : rest.length ≤ t.length) : rest ≠ y ++ slash :: t := by
  rintro rfl
  rw [List.length_append, List.length_cons] at h
  omega

theorem head?_append_slash (x t t' : Bytes) :
    (x ++ slash :: t).head? = (x ++ slash :: t').head? := by
  cases x <;> rfl

/-- A scan that passes over slashes, and yet stopped in front of one, does not see what is behind
it. The lemmas that follow say the same of each reader. -/
theorem dropWhile_before_slash {p : UInt8 → Bool} (hslash : p slash = true)
    (h : (x ++ slash :: t).dropWhile p = y ++ slash :: t) :
    (x ++ slash :: t').takeWhile p = (x ++ slash :: t).takeWhile p ∧
      (x ++ slash :: t').dropWhile p = y ++ slash :: t' := by
  induction x with
  | nil =>
    rw [List.nil_append, List.dropWhile_cons_of_pos hslash] at h
    exact absurd h (ne_append_slash (length_dropWhile_le p t))
  | cons b x ih =>
    rw [List.cons_append] at h ⊢
    by_cases hb : p b = true
    · rw [List.dropWhile_cons_of_pos hb] at h ⊢
      obtain ⟨htake, hdrop⟩ := ih h
      rw [List.cons_append, List.takeWhile_cons_of_pos hb, List.takeWhile_cons_of_pos hb, htake]
      exact ⟨rfl, hdrop⟩
    · rw [List.dropWhile_cons_of_neg hb] at h ⊢
      obtain rfl : b :: x = y := List.append_cancel_right
        (show b :: x ++ slash :: t = y ++ slash :: t from h)
      rw [List.cons_append, List.takeWhile_cons_of_neg hb, List.takeWhile_cons_of_neg hb]
      exact ⟨rfl, rfl⟩

theorem literalTail_cons {quote b : UInt8} (hslash : b ≠ backslash) (hline : b ≠ newline)
    (hquote : b ≠ quote) (rest : Bytes) :
    literalTail quote (b :: rest)
      = (b :: (literalTail quote rest).1, (literalTail quote rest).2) := by
  have hplain : ∀ d ∈ [b], d ≠ backslash ∧ d ≠ newline ∧ d ≠ quote := by
    intro d hd
    obtain rfl := List.mem_singleton.1 hd
    exact ⟨hslash, hline, hquote⟩
  exact literalTail_append_of_ne hplain rest

/-- A literal that ended in front of the slash ends there whatever stands behind the slash. -/
theorem literalTail_before_slash {quote : UInt8} (hquote : isQuote quote = true)
    (h : (literalTail quote (x ++ slash :: t)).2 = y ++ slash :: t) :
    literalTail quote (x ++ slash :: t')
      = ((literalTail quote (x ++ slash :: t)).1, y ++ slash :: t') := by
  fun_induction literalTail quote x with
  | case1 =>
    have hne : slash ≠ quote := by
      rintro rfl
      cases hquote
    rw [List.nil_append, literalTail_cons (by decide) (by decide) hne] at h
    exact absurd h (ne_append_slash (length_literalTail_le quote t))
  | case2 =>
    -- the backslash would take the slash along
    exact absurd h (ne_append_slash (length_literalTail_le quote t))
  | case3 e x ih =>
    simp only [List.cons_append, literalTail, ↓reduceIte] at h ⊢
    rw [ih h]
  | case4 x hslash =>
    have hstop : ∀ rest, literalTail quote (newline :: rest) = ([], newline :: rest) := by
      intro rest
      rw [literalTail.eq_def]
      rfl
    rw [List.cons_append, hstop] at h ⊢
    obtain rfl : newline :: x = y := List.append_cancel_right
      (show newline :: x ++ slash :: t = y ++ slash :: t from h)
    rw [List.cons_append, hstop]
    rfl
  | case5 x hslash hline =>
    rw [List.cons_append, literalTail_quote hslash hline] at h ⊢
    rw [List.cons_append, literalTail_quote hslash hline, List.append_cancel_right h]
  | case6 b x hslash hline hb ih =>
    rw [List.cons_append, literalTail_cons hslash hline hb] at h ⊢
    rw [List.cons_append, literalTail_cons hslash hline hb, ih h]

theorem afterWord?_append_slash {word : Bytes} (hword : slash ∉ word) (x t : Bytes) :
    afterWord? word (x ++ slash :: t) = (afterWord? word x).map (· ++ slash :: t) := by
  fun_induction afterWord? word x with
  | case1 x => rfl
  | case2 w word =>
    refine if_neg ?_
    rintro rfl
    exact hword List.mem_cons_self
  | case3 word b x ih =>
    rw [List.cons_append, afterWord?, if_pos rfl]
    exact ih fun hmem => hword (List.mem_cons_of_mem _ hmem)
  | case4 w word b x hb =>
    rw [List.cons_append, afterWord?, if_neg hb]
    rfl

theorem length_blockBody_le (bytes : Bytes) : (blockBody bytes).2.1.length ≤ bytes.length := by
  have h := congrArg List.length (blockBody_append bytes)
  rw [List.length_append] at h
  omega

theorem blockBody_before_slash (h : (blockBody (x ++ slash :: t)).2.1 = y ++ slash :: t) :
    blockBody (x ++ slash :: t')
      = ((blockBody (x ++ slash :: t)).1, y ++ slash :: t', (blockBody (x ++ slash :: t)).2.2) := by
  induction x with
  | nil =>
    have hslash : ¬ (slash = star ∧ t.head? = some slash) := fun hend => absurd hend.1 (by decide)
    rw [List.nil_append, blockBody, if_neg hslash] at h
    exact absurd h (ne_append_slash (length_blockBody_le t))
  | cons b x ih =>
    rw [List.cons_append, blockBody] at h ⊢
    rw [List.cons_append, blockBody, head?_append_slash x t' t]
    split
    · next hend =>
      rw [if_pos hend] at h
      cases x with
      | nil => exact absurd h (ne_append_slash (Nat.le_refl _))
      | cons c x =>
        obtain rfl : x = y := List.append_cancel_right
          (show x ++ slash :: t = y ++ slash :: t from h)
        rfl
    · next hend =>
      rw [if_neg hend] at h
      rw [ih h]

theorem afterUrl_before_slash (h : afterUrl (x ++ slash :: t) = y ++ slash :: t) :
    urlValue (x ++ slash :: t') = urlValue (x ++ slash :: t) ∧
      ((x ++ slash :: t').dropWhile (· ≠ closeParen)).take 1
        = ((x ++ slash :: t).dropWhile (· ≠ closeParen)).take 1 ∧
      afterUrl (x ++ slash :: t') = y ++ slash :: t' := by
  rw [afterUrl] at h
  cases hclose : (x ++ slash :: t).dropWhile (· ≠ closeParen) with
  | nil =>
    rw [hclose] at h
    cases y <;> cases h
  | cons c rest =>
    rw [hclose, List.drop_succ_cons, List.drop_zero] at h
    rw [h] at hclose
    have hclosed : (x ++ slash :: t).dropWhile (· ≠ closeParen) = c :: y ++ slash :: t := hclose
    obtain ⟨hvalue, hrest⟩ := dropWhile_before_slash t' (by decide) hclosed
    rw [afterUrl, hrest]
    exact ⟨hvalue, rfl, rfl⟩

/-- A piece that ends before a slash is cut the same way whatever stands behind that slash. -/
theorem next_before_slash {b : UInt8} (h : (next b (x ++ slash :: t)).2 = y ++ slash :: t) :
    next b (x ++ slash :: t') = ((next b (x ++ slash :: t)).1, y ++ slash :: t') := by
  have hword : ∀ t, afterWord? urlWord (b :: (x ++ slash :: t))
      = (afterWord? urlWord (b :: x)).map (· ++ slash :: t) := fun t =>
    afterWord?_append_slash (by decide) (b :: x) t
  unfold next at h ⊢
  by_cases hquote : isQuote b = true
  · rw [if_pos hquote] at h
    rw [if_pos hquote, if_pos hquote, literalTail_before_slash t' hquote h]
  rw [if_neg hquote, hword] at h
  rw [if_neg hquote, if_neg hquote, hword, hword]
  cases hurl : afterWord? urlWord (b :: x) with
  | some after =>
    rw [hurl] at h
    obtain ⟨hvalue, hclose, hafter⟩ := afterUrl_before_slash t' h
    have hlength : urlWord.length ≤ (b :: x).length := by
      rw [length_of_afterWord? hurl]
      exact Nat.le_add_right _ _
    have htake : ∀ t, (b :: x ++ slash :: t).take urlWord.length = (b :: x).take urlWord.length :=
      fun t => List.take_append_of_le_length hlength
    simp only [List.cons_append] at htake
    simp only [Option.map_some]
    rw [hvalue, hclose, hafter, htake, htake]
  | none =>
    rw [hurl] at h
    simp only [Option.map_none, head?_append_slash x t' t] at h ⊢
    split
    · next hline =>
      rw [if_pos hline] at h
      cases x with
      | nil => exact absurd h (ne_append_slash (length_dropWhile_le _ t))
      | cons c x =>
        obtain ⟨hbody, hrest⟩ := dropWhile_before_slash t' (by decide) h
        exact Prod.ext (congrArg Piece.lineComment hbody) hrest
    · next hline =>
      rw [if_neg hline] at h
      split
      · next hblock =>
        rw [if_pos hblock] at h
        cases x with
        | nil => exact absurd h (ne_append_slash (length_blockBody_le t))
        | cons c x =>
          have hbody := blockBody_before_slash t' h
          simp only [List.cons_append, List.drop_succ_cons, List.drop_zero]
          rw [hbody]
      · next hblock =>
        rw [if_neg hblock] at h
        rw [← List.append_cancel_right h]

/-- The pieces that end before a slash are the same whatever stands behind that slash. -/
theorem pieces_before_slash {first rest : List Piece}
    (h : pieces (first.flatMap Piece.source ++ slash :: t) = first ++ rest) (t' : Bytes) :
    pieces (first.flatMap Piece.source ++ slash :: t') = first ++ pieces (slash :: t') := by
  induction first with
  | nil => rfl
  | cons piece first ih =>
    -- the first piece holds an octet `b`, so the text begins with it
    cases hsource : piece.source with
    | nil =>
      cases htext : (piece :: first).flatMap Piece.source ++ slash :: t with
      | nil => cases (List.append_eq_nil_iff.1 htext).2
      | cons b bytes =>
        rw [htext, pieces_cons, List.cons_append] at h
        obtain ⟨rfl, -⟩ := List.cons.inj h
        exact absurd hsource (source_next_ne_nil b bytes)
    | cons b x =>
      have htext : ∀ t, (piece :: first).flatMap Piece.source ++ slash :: t
          = b :: (x ++ first.flatMap Piece.source ++ slash :: t) := by
        intro t
        rw [List.flatMap_cons, hsource, List.append_assoc, List.append_assoc]
        rfl
      rw [htext, pieces_cons, List.cons_append] at h
      obtain ⟨hpiece, hrest⟩ := List.cons.inj h
      have hnext := source_next_append b (x ++ first.flatMap Piece.source ++ slash :: t)
      rw [hpiece, hsource, List.cons_append] at hnext
      have hleft := List.append_cancel_left
        ((List.cons.inj hnext).2.trans (List.append_assoc x _ _))
      rw [hleft] at hrest
      rw [htext, pieces_cons, next_before_slash t' hleft, hpiece, ih hrest]
      rfl

end BeforeSlash

/-- A piece begins at the position: the cut goes on there. -/
def BeginsPiece (bytes : Bytes) (position : Nat) : Prop :=
  ∃ first rest, pieces bytes = first ++ rest ∧ (first.flatMap Piece.source).length = position

/-- Two texts that blank to the same, put behind what ends in front of them, blank to the same. -/
theorem blank_before_slash {first t t' : Bytes}
    (h : BeginsPiece (first ++ slash :: t) first.length)
    (hblank : blank (slash :: t) = blank (slash :: t')) :
    blank (first ++ slash :: t) = blank (first ++ slash :: t') := by
  obtain ⟨before, rest, hpieces, hlength⟩ := h
  have hsource := flatMap_source_pieces (first ++ slash :: t)
  rw [hpieces, List.flatMap_append] at hsource
  obtain ⟨rfl, -⟩ := List.append_inj hsource hlength
  have hcut := pieces_before_slash hpieces
  rw [blank, blank, hcut, hcut, List.flatMap_append, List.flatMap_append]
  exact congrArg _ hblank

end SheetImports.Stylesheet

namespace SheetImports.Grammar

open Stylesheet Utf8

/-- Two comments of one kind that take the same number of lines. -/
inductive Comment.Alike : Comment → Comment → Prop
  | line {body body' : Text} (oneLine : '\n' ∉ body) (oneLine' : '\n' ∉ body') :
    Alike (.line body oneLine) (.line body' oneLine')
  | block {body body' : Text} (open_ : ¬ "*/".toList <:+: body) (open_' : ¬ "*/".toList <:+: body')
      (hlines : lineFeeds body = lineFeeds body') : Alike (.block body open_) (.block body' open_')

/-- Comments of one kind with the same line feeds leave the same. -/
theorem Comment.Alike.blanked_eq {comment comment' : Comment} (h : comment.Alike comment') :
    comment.blanked = comment'.blanked := by
  cases h with
  | line => rfl
  | block _ _ hlines =>
    rw [lineFeeds, lineFeeds] at hlines
    rw [blanked, blanked, List.filter_beq, List.filter_beq, hlines]

theorem Comment.exists_encode (comment : Comment) :
    ∃ bytes, encode comment.text = slash :: bytes := by
  cases comment <;> exact ⟨_, encode_cons_of_lt (by decide) _⟩

/-- Where a comment begins a piece, the imports do not depend on what it says, as long as it is a
comment of the same kind and takes as many lines. -/
theorem imports_eq_of_alike {before after : Text} {comment comment' : Comment}
    (halike : comment.Alike comment')
    (hbegins : BeginsPiece (encode (before ++ comment.text ++ after)) (encode before).length) :
    imports (before ++ comment.text ++ after) = imports (before ++ comment'.text ++ after) := by
  have hrest : blank (encode comment.text ++ encode after)
      = blank (encode comment'.text ++ encode after) := by
    rw [blanks_comment comment, blanks_comment comment', halike.blanked_eq]
  obtain ⟨bytes, hbytes⟩ := comment.exists_encode
  obtain ⟨bytes', hbytes'⟩ := comment'.exists_encode
  rw [encode_append, encode_append, hbytes, List.append_assoc] at hbegins
  rw [hbytes, hbytes'] at hrest
  have hblank := blank_before_slash hbegins hrest
  rw [imports, imports, encode_append, encode_append, encode_append, encode_append, hbytes, hbytes',
    List.append_assoc, List.append_assoc]
  exact congrArg directives hblank

/-- A comment that begins a statement, a url and a literal, and ends none of them. -/
def loudComment : Comment := .block "@import 'x'; url( \"\n//".toList (by decide +kernel)

/-- A comment that says nothing, on two lines as well. -/
def emptyComment : Comment := .block "\n".toList (by decide +kernel)

theorem imports_loudComment :
    loudComment.Alike emptyComment ∧
      BeginsPiece (encode ("@import 'a'; ".toList ++ loudComment.text ++ "@import 'b';".toList))
        (encode "@import 'a'; ".toList).length ∧
      imports ("@import 'a'; ".toList ++ loudComment.text ++ "@import 'b';".toList)
        = imports ("@import 'a'; ".toList ++ emptyComment.text ++ "@import 'b';".toList) ∧
      imports ("@import 'a'; ".toList ++ loudComment.text ++ "@import 'b';".toList)
        = [⟨"a".toList, 1, .stylesheet⟩, ⟨"b".toList, 2, .stylesheet⟩] := by
  have halike : loudComment.Alike emptyComment := .block _ _ (by decide +kernel)
  have hbegins : BeginsPiece
      (encode ("@import 'a'; ".toList ++ loudComment.text ++ "@import 'b';".toList))
      (encode "@import 'a'; ".toList).length := by
    refine ⟨(pieces _).take 11, (pieces _).drop 11, (List.take_append_drop 11 _).symm, ?_⟩
    decide +kernel
  exact ⟨halike, hbegins, imports_eq_of_alike halike hbegins, by decide +kernel⟩

end SheetImports.Grammar
