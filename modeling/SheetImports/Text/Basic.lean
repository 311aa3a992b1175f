/-!
# Text

A text is the list of its Unicode scalar values. Everything this library decides about names,
paths and lines it decides by recursion on that list; strings appear only where a program meets
the world outside. Splitting and joining at a separator are `List.splitOn` and `List.intercalate`,
which undo each other (`List.intercalate_splitOn`, `List.splitOn_intercalate`).
-/

namespace SheetImports

/-- A sequence of Unicode scalar values. -/
abbrev Text := List Char

/-- A sequence of octets, as files and streams hold them. -/
abbrev Bytes := List UInt8

namespace Text

/-- The text without the characters at its end that satisfy `drop`. -/
def trimEnd (drop : Char → Bool) (text : Text) : Text :=
  (text.reverse.dropWhile drop).reverse

/-- The text without the characters at either end that satisfy `drop`. -/
def trim (drop : Char → Bool) (text : Text) : Text :=
  trimEnd drop (text.dropWhile drop)

/-- What stands before and after the first occurrence of `pattern`. -/
def cut (pattern : Text) : Text → Option (Text × Text)
  | [] => if pattern = [] then some ([], []) else none
  | c :: text =>
    match pattern.isPrefixOf? (c :: text) with
    | some after => some ([], after)
    | none => (cut pattern text).map fun (before, after) => (c :: before, after)

/-- A natural number in decimal digits, without leading zeros. -/
def ofNat (n : Nat) : Text := Nat.toDigits 10 n

/-- A natural number in lower-case hexadecimal digits, without leading zeros. -/
def ofNatHex (n : Nat) : Text := Nat.toDigits 16 n

/-- A decimal digit. -/
def isDigit (c : Char) : Bool := '0' ≤ c && c ≤ '9'

/-- The value of a decimal digit. -/
def digitValue (c : Char) : Nat := c.toNat - '0'.toNat

/-- The number that decimal digits write. -/
def natValue (digits : Text) : Nat := digits.foldl (fun n c => n * 10 + digitValue c) 0

/-- The last occurrence of `c` and what stands before it, or nothing if `c` does not occur. -/
def throughLast (c : Char) (text : Text) : Text :=
  (text.reverse.dropWhile (· ≠ c)).reverse

/-! ## Laws -/

theorem trimEnd_concat_of_drop {drop : Char → Bool} {c : Char} (h : drop c = true) (text : Text) :
    trimEnd drop (text ++ [c]) = trimEnd drop text := by
  simp [trimEnd, h]

theorem trimEnd_concat_of_keep {drop : Char → Bool} {c : Char} (h : drop c = false) (text : Text) :
    trimEnd drop (text ++ [c]) = text ++ [c] := by
  simp [trimEnd, h]

/-- What consists of characters that may be dropped is dropped from the end. -/
theorem trimEnd_append_of_drop {drop : Char → Bool} (first : Text) {second : Text}
    (h : ∀ c ∈ second, drop c = true) : (first ++ second).trimEnd drop = first.trimEnd drop := by
  unfold trimEnd
  rw [List.reverse_append, List.dropWhile_append_of_pos]
  intro c hc
  exact h c (List.mem_reverse.1 hc)

/-- Nothing is dropped behind a character that may not be dropped. -/
theorem trimEnd_eq_self {drop : Char → Bool} {text : Text}
    (h : ∀ c ∈ text.getLast?, drop c = false) : text.trimEnd drop = text := by
  rcases List.eq_nil_or_concat text with rfl | ⟨front, c, rfl⟩
  · rfl
  · rw [List.concat_eq_append]
    exact trimEnd_concat_of_keep (h c (by simp)) front

theorem splitOn_of_notMem {c : Char} {text : Text} (h : c ∉ text) : text.splitOn c = [text] := by
  have hsplit : ([c].intercalate [text]).splitOn c = [text] := by
    apply List.splitOn_intercalate c _ (List.cons_ne_nil text [])
    intro other hother
    rwa [List.mem_singleton.1 hother]
  rwa [List.intercalate_singleton] at hsplit

/-- In a list of named entries the first of a name is found. -/
theorem lookup_cons_eq_ite {α : Type} (name : Text) (entry : α) (entries : List (Text × α))
    (other : Text) :
    ((name, entry) :: entries).lookup other =
      if other = name then some entry else entries.lookup other := by
  by_cases h : other = name
  · simp [h]
  · rw [List.lookup_cons, beq_false_of_ne h, if_neg h]

theorem append_of_isPrefixOf? {rest : Text} :
    ∀ {pattern text : Text}, pattern.isPrefixOf? text = some rest → pattern ++ rest = text
  | [], _, h => (Option.some.inj h).symm
  | _ :: _, [], h => nomatch h
  | p :: pattern, c :: text, h => by
    change (if (p == c) = true then pattern.isPrefixOf? text else none) = some rest at h
    split at h
    · next hpc =>
      rw [List.cons_append, append_of_isPrefixOf? h, eq_of_beq hpc]
    · cases h

/-- A cut loses nothing: the two parts with the pattern between them are the text. -/
theorem append_of_cut {pattern before after : Text} :
    ∀ {text : Text}, cut pattern text = some (before, after) →
      text = before ++ pattern ++ after := by
  intro text
  induction text generalizing before with
  | nil =>
    intro h
    by_cases hp : pattern = []
    · simp_all [cut]
    · simp [cut, hp] at h
  | cons c text ih =>
    intro h
    unfold cut at h
    cases hp : pattern.isPrefixOf? (c :: text) with
    | some rest =>
      simp only [hp, Option.some.injEq, Prod.mk.injEq] at h
      obtain ⟨rfl, rfl⟩ := h
      simpa using (append_of_isPrefixOf? hp).symm
    | none =>
      simp only [hp, Option.map_eq_some_iff, Prod.mk.injEq] at h
      obtain ⟨⟨before', after'⟩, hcut, rfl, rfl⟩ := h
      simp [ih hcut]

end Text

end SheetImports
