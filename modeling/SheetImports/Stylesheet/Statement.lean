import SheetImports.Stylesheet.Piece

/-!
# Import statements

An import statement is the keyword `@import` in any letter case, one or more targets separated by
commas, and what stands on the same line after the last target up to `;`, `{` or `}`: the media
query. A target is a string literal or a url. `statements` finds every statement outside string
literals of a stylesheet whose comments are blanked out.

A statement is cut out without being read: it says where its keyword stands and which stretches of
the text its targets and its media query are. Positions count octets from the start of the text. The
functions here go through the end of a text of `size` octets that is still to be scanned, so what
begins with `bytes` stands at `size - bytes.length`.
-/

namespace SheetImports.Stylesheet

/-- A stretch of a text. -/
structure Stretch where
  /-- The number of octets before it. -/
  start : Nat
  octets : Bytes
  deriving DecidableEq, Repr

/-- A target of a statement. -/
structure Target where
  /-- Where the target opens: at its quote, or at the first letter of `url(`. -/
  mark : Nat
  /-- A literal with its quotes, or what stands between the parentheses of a url. -/
  value : Stretch
  isUrl : Bool
  deriving DecidableEq, Repr

/-- An import statement. -/
structure Statement where
  /-- Where the keyword stands, counted at its `@`. -/
  keyword : Nat
  targets : List Target
  /-- What stands between the last target and the end of the statement. -/
  media : Stretch
  deriving DecidableEq, Repr

theorem length_dropWhile_le (p : UInt8 → Bool) (bytes : Bytes) :
    (bytes.dropWhile p).length ≤ bytes.length :=
  (List.dropWhile_sublist p).length_le

/-! ## Targets -/

/-- The target that the octets begin with, and what follows. -/
def target? (size : Nat) : Bytes → Option (Target × Bytes)
  | [] => none
  | b :: bytes =>
    let mark := size - (b :: bytes).length
    if isQuote b then
      some (⟨mark, ⟨mark, b :: (literalTail b bytes).1⟩, false⟩, (literalTail b bytes).2)
    else
      (afterWord? urlWord (b :: bytes)).map fun after =>
        (⟨mark, ⟨size - after.length, urlValue after⟩, true⟩, afterUrl after)

/-- A target takes at least one octet, so a list of targets ends. -/
theorem length_of_target? {size : Nat} {bytes rest : Bytes} {t : Target}
    (h : target? size bytes = some (t, rest)) : rest.length < bytes.length := by
  cases bytes with
  | nil => simp [target?] at h
  | cons b bytes =>
    simp only [target?] at h
    split at h
    · simp only [Option.some.injEq, Prod.mk.injEq] at h
      obtain ⟨-, rfl⟩ := h
      exact Nat.lt_succ_of_le (length_literalTail_le b bytes)
    · simp only [Option.map_eq_some_iff, Prod.mk.injEq] at h
      obtain ⟨after, hafter, -, rfl⟩ := h
      have := length_of_afterWord? hafter
      have := length_afterUrl_le after
      simp only [urlWord, List.length_cons, List.length_nil] at *
      omega

/-- The targets that the octets begin with, and what follows. A comma asks for another target;
without one, what follows the last target is left as it is. -/
def targets (size : Nat) (bytes : Bytes) : List Target × Bytes :=
  match h : target? size (bytes.dropWhile isGap) with
  | none => ([], bytes.dropWhile isGap)
  | some (t, rest) =>
    have := length_of_target? h
    match hrest : rest.dropWhile isGap with
    | [] => ([t], rest)
    | b :: more =>
      have := hrest ▸ length_dropWhile_le isGap rest
      if b = comma then (t :: (targets size more).1, (targets size more).2) else ([t], rest)
termination_by bytes.length
decreasing_by
  all_goals
    have := length_dropWhile_le isGap bytes
    simp only [List.length_cons] at *
    omega

theorem length_targets_le (size : Nat) (bytes : Bytes) :
    (targets size bytes).2.length ≤ bytes.length := by
  fun_induction targets size bytes with
  | case1 bytes h => exact length_dropWhile_le isGap bytes
  | case2 bytes t rest h hlt hrest =>
    exact Nat.le_trans (Nat.le_of_lt hlt) (length_dropWhile_le isGap bytes)
  | case3 bytes t rest h hlt more hrest hle ih =>
    have := length_dropWhile_le isGap bytes
    rw [List.length_cons] at hle
    refine Nat.le_trans ih ?_
    omega
  | case4 bytes t rest h hlt b more hrest hle hb =>
    exact Nat.le_trans (Nat.le_of_lt hlt) (length_dropWhile_le isGap bytes)

/-! ## Statements -/

/-- What ends a statement: `;`, `{`, `}` or the end of the line. -/
def isTerminator (b : UInt8) : Bool := b == semicolon || b == 0x7B || b == 0x7D || b == newline

/-- What follows `@import`, if the octet `b` and those after it are that and no longer word. -/
def afterImport? (b : UInt8) (bytes : Bytes) : Option Bytes :=
  if b = atSign then (afterWord? importWord bytes).filter fun after => !after.head?.any isWordByte
  else none

theorem length_of_afterImport? {b : UInt8} {bytes after : Bytes}
    (h : afterImport? b bytes = some after) : after.length ≤ bytes.length := by
  unfold afterImport? at h
  split at h
  · have := length_of_afterWord? (Option.filter_eq_some_iff.1 h).1
    omega
  · cases h

/-- What follows a statement, given what follows its targets. A `;` belongs to the statement; any
other end does not. -/
def afterStatement (bytes : Bytes) : Bytes :=
  let after := bytes.dropWhile (!isTerminator ·)
  if after.head? = some semicolon then after.drop 1 else after

theorem length_afterStatement_le (bytes : Bytes) :
    (afterStatement bytes).length ≤ bytes.length := by
  have := length_dropWhile_le (!isTerminator ·) bytes
  simp only [afterStatement]
  split
  · rw [List.length_drop]
    omega
  · exact this

/-- The statement at `keyword`, given what follows the keyword. -/
def statement (size keyword : Nat) (bytes : Bytes) : Statement :=
  let (targets, rest) := targets size bytes
  ⟨keyword, targets, ⟨size - rest.length, rest.takeWhile (!isTerminator ·)⟩⟩

/-- The statements of a text without comments of `size` octets, as far as they stand in its end
`bytes`. -/
def statements (size : Nat) : Bytes → List Statement
  | [] => []
  | b :: bytes =>
    if isQuote b then statements size (literalTail b bytes).2
    else
      match h : afterImport? b bytes with
      | some after =>
        have := length_of_afterImport? h
        statement size (size - (b :: bytes).length) after
          :: statements size (afterStatement (targets size after).2)
      | none => statements size bytes
termination_by bytes => bytes.length
decreasing_by
  · exact Nat.lt_succ_of_le (length_literalTail_le b bytes)
  · have := length_afterStatement_le (targets size after).2
    have := length_targets_le size after
    simp only [List.length_cons]
    omega
  · exact Nat.lt_succ_self _

end SheetImports.Stylesheet
