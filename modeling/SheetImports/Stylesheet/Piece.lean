import SheetImports.Stylesheet.Literal

/-!
# Pieces of a stylesheet

`pieces` cuts the octets of a stylesheet, from left to right, into string literals, url values,
comments and single octets. `blank` writes the pieces back with every comment blanked out: a line
comment leaves nothing and a block comment leaves its line feeds and a space, so that what follows
stays on its line and words stay apart.

Main statements: `flatMap_source_pieces`, nothing is lost by the cut; `newlines_blank`, blanking
keeps the number of lines.
-/

namespace SheetImports.Stylesheet

/-- A stretch of a stylesheet that is scanned as a whole. -/
inductive Piece where
  /-- A string literal with its quotes, as far as it goes. -/
  | literal (lexeme : Bytes)
  /-- A url from its first letter through the closing parenthesis, or to the end of the text. -/
  | url (lexeme : Bytes)
  /-- A comment to the end of the line; the line feed is not part of it. -/
  | lineComment (body : Bytes)
  /-- A comment between `/*` and `*/`, or to the end of the text if it is not closed. -/
  | blockComment (body : Bytes) (closed : Bool)
  /-- An octet of the rest. -/
  | plain (b : UInt8)
  deriving DecidableEq, Repr

namespace Piece

/-- The octets of the stylesheet that a piece was cut from. -/
def source : Piece → Bytes
  | literal lexeme => lexeme
  | url lexeme => lexeme
  | lineComment body => slash :: slash :: body
  | blockComment body closed => slash :: star :: (body ++ if closed then [star, slash] else [])
  | plain b => [b]

/-- What is left of a piece when comments are blanked out. -/
def blanked : Piece → Bytes
  | literal lexeme => lexeme
  | url lexeme => lexeme
  | lineComment _ => []
  | blockComment body _ => body.filter (· == newline) ++ [space]
  | plain b => [b]

end Piece

/-! ## Cutting -/

/-- The body of a block comment, what follows the comment, and whether it is closed. -/
def blockBody : Bytes → Bytes × Bytes × Bool
  | [] => ([], [], false)
  | b :: bytes =>
    if b = star ∧ bytes.head? = some slash then ([], bytes.drop 1, true)
    else (b :: (blockBody bytes).1, (blockBody bytes).2)

/-- The piece that begins with the octet `b`, and what follows it. A literal is seen first, then a
url, so that neither a quote nor `//` inside a url is taken for the start of something else. -/
def next (b : UInt8) (bytes : Bytes) : Piece × Bytes :=
  if isQuote b then (.literal (b :: (literalTail b bytes).1), (literalTail b bytes).2)
  else
    match afterWord? urlWord (b :: bytes) with
    | some after =>
      (.url ((b :: bytes).take urlWord.length ++ urlValue after
        ++ (after.dropWhile (· ≠ closeParen)).take 1), afterUrl after)
    | none =>
      if b = slash ∧ bytes.head? = some slash then
        (.lineComment ((bytes.drop 1).takeWhile (· ≠ newline)),
          (bytes.drop 1).dropWhile (· ≠ newline))
      else if b = slash ∧ bytes.head? = some star then
        (.blockComment (blockBody (bytes.drop 1)).1 (blockBody (bytes.drop 1)).2.2,
          (blockBody (bytes.drop 1)).2.1)
      else (.plain b, bytes)

/-- A block comment and what follows it are the octets it was cut from. -/
theorem blockBody_append (bytes : Bytes) :
    (blockBody bytes).1 ++ (if (blockBody bytes).2.2 then [star, slash] else [])
      ++ (blockBody bytes).2.1 = bytes := by
  fun_induction blockBody bytes with
  | case1 => rfl
  | case2 b bytes h =>
    obtain ⟨rfl, h⟩ := h
    obtain ⟨rest, rfl⟩ := List.head?_eq_some_iff.1 h
    rfl
  | case3 b bytes h ih => simpa using ih

/-- A piece and what follows it are the octets it was cut from. -/
theorem source_next_append (b : UInt8) (bytes : Bytes) :
    (next b bytes).1.source ++ (next b bytes).2 = b :: bytes := by
  unfold next
  split
  · simp [Piece.source, literalTail_append]
  · split
    next after h =>
      have hsplit := List.takeWhile_append_dropWhile (p := (· ≠ closeParen)) (l := after)
      have hdrop := List.take_append_drop 1 (after.dropWhile (· ≠ closeParen))
      rw [Piece.source, afterUrl, List.append_assoc, hdrop, urlValue, List.append_assoc, hsplit]
      exact (eq_append_of_afterWord? h).symm
    next =>
      split
      next h =>
        obtain ⟨rfl, h⟩ := h
        obtain ⟨rest, rfl⟩ := List.head?_eq_some_iff.1 h
        simp [Piece.source]
      next =>
        split
        next h =>
          obtain ⟨rfl, h⟩ := h
          obtain ⟨rest, rfl⟩ := List.head?_eq_some_iff.1 h
          simpa [Piece.source] using blockBody_append rest
        next => rfl

theorem source_next_ne_nil (b : UInt8) (bytes : Bytes) : (next b bytes).1.source ≠ [] := by
  unfold next
  split
  · simp [Piece.source]
  · split
    next after h => simp [Piece.source, urlWord]
    next => split <;> try split
            all_goals simp [Piece.source]

/-- A piece takes at least one octet, so the cutting ends. -/
theorem length_next_lt (b : UInt8) (bytes : Bytes) :
    (next b bytes).2.length < (b :: bytes).length := by
  have h := congrArg List.length (source_next_append b bytes)
  have := List.length_pos_iff.2 (source_next_ne_nil b bytes)
  rw [List.length_append] at h
  omega

/-- The pieces of a stylesheet, from left to right. -/
def pieces : Bytes → List Piece
  | [] => []
  | b :: bytes => (next b bytes).1 :: pieces (next b bytes).2
termination_by bytes => bytes.length
decreasing_by exact length_next_lt b bytes

/-- The stylesheet with its comments blanked out. -/
def blank (bytes : Bytes) : Bytes := (pieces bytes).flatMap Piece.blanked

/-! ## Laws -/

/-- The pieces are the stylesheet, cut. -/
theorem flatMap_source_pieces (bytes : Bytes) : (pieces bytes).flatMap Piece.source = bytes := by
  fun_induction pieces bytes with
  | case1 => rfl
  | case2 b bytes ih => rw [List.flatMap_cons, ih, source_next_append]

theorem newlines_append (xs ys : Bytes) : newlines (xs ++ ys) = newlines xs + newlines ys :=
  List.count_append

theorem newlines_cons_of_ne {b : UInt8} (h : b ≠ newline) (bytes : Bytes) :
    newlines (b :: bytes) = newlines bytes :=
  List.count_cons_of_ne h

theorem newlines_blanked_next (b : UInt8) (bytes : Bytes) :
    newlines (next b bytes).1.blanked = newlines (next b bytes).1.source := by
  unfold next
  split
  · rfl
  · split
    · rfl
    · split
      · have h : newlines ((bytes.drop 1).takeWhile (· ≠ newline)) = 0 := by
          refine List.count_eq_zero.2 fun hmem => ?_
          have := List.all_eq_true.1 (List.all_takeWhile (p := (· ≠ newline))) _ hmem
          simp at this
        rw [Piece.blanked, Piece.source, newlines_cons_of_ne (by decide),
          newlines_cons_of_ne (by decide), h]
        rfl
      · split
        · rw [Piece.blanked, Piece.source, newlines_cons_of_ne (by decide),
            newlines_cons_of_ne (by decide), newlines_append, newlines_append]
          have h : newlines (if (blockBody (bytes.drop 1)).2.2 then [star, slash] else []) = 0 := by
            split <;> decide
          rw [h, newlines, newlines, List.count_filter (by decide)]
          rfl
        · rfl

/-- Blanking keeps the number of lines. -/
theorem newlines_blank (bytes : Bytes) : newlines (blank bytes) = newlines bytes := by
  unfold blank
  fun_induction pieces bytes with
  | case1 => rfl
  | case2 b bytes ih =>
    rw [List.flatMap_cons, newlines_append, ih, newlines_blanked_next, ← newlines_append,
      source_next_append]

end SheetImports.Stylesheet
