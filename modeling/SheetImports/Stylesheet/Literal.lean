import SheetImports.Text.Blank
import SheetImports.Text.Utf8

/-!
# Literals and url values

A stylesheet is scanned as octets: every mark that matters is ASCII, and no octet of a longer
sequence is. Here are the stretches that a scan must not look into: string literals and the values
between `url(` and `)`. A literal ends after its own quote, before a line feed if it is not closed,
or with the text; a backslash takes the next octet along, whatever it is.
-/

namespace SheetImports.Stylesheet

/-! ## Octets that matter -/

/-- The line feed. -/
abbrev newline : UInt8 := 0x0A
/-- The space. -/
abbrev space : UInt8 := 0x20
/-- The octet `*`. -/
abbrev star : UInt8 := 0x2A
/-- The octet `,`. -/
abbrev comma : UInt8 := 0x2C
/-- The octet `/`. -/
abbrev slash : UInt8 := 0x2F
/-- The octet `;`. -/
abbrev semicolon : UInt8 := 0x3B
/-- The octet `@`. -/
abbrev atSign : UInt8 := 0x40
/-- The octet `\`. -/
abbrev backslash : UInt8 := 0x5C
/-- The octet `)`. -/
abbrev closeParen : UInt8 := 0x29

/-- A single or a double quote. -/
def isQuote (b : UInt8) : Bool := b == 0x22 || b == 0x27

/-- The octets that may separate the words of a statement: ASCII white space. -/
def isGap (b : UInt8) : Bool := b == 0x20 || b == 0x09 || b == 0x0A || b == 0x0C || b == 0x0D

/-- A letter, a digit, a hyphen or an underscore: what would make a keyword longer. -/
def isWordByte (b : UInt8) : Bool :=
  (0x41 ≤ b && b ≤ 0x5A) || (0x61 ≤ b && b ≤ 0x7A) || (0x30 ≤ b && b ≤ 0x39) || b == 0x2D
    || b == 0x5F

/-- An ASCII capital as a small letter, all else as it is. -/
def lower (b : UInt8) : UInt8 := if 0x41 ≤ b && b ≤ 0x5A then b + 0x20 else b

/-- The number of line feeds. -/
def newlines (bytes : Bytes) : Nat := bytes.count newline

/-! ## Words -/

/-- What follows `word`, given in small letters, if the octets begin with it in any letter case. -/
def afterWord? : Bytes → Bytes → Option Bytes
  | [], bytes => some bytes
  | _ :: _, [] => none
  | w :: word, b :: bytes => if lower b = w then afterWord? word bytes else none

/-- The word `url(`. -/
def urlWord : Bytes := [0x75, 0x72, 0x6C, 0x28]

/-- The word `import`. -/
def importWord : Bytes := [0x69, 0x6D, 0x70, 0x6F, 0x72, 0x74]

/-! ## Stretches -/

/-- The octets of a string literal after its opening quote, and what follows the literal. -/
def literalTail (quote : UInt8) : Bytes → Bytes × Bytes
  | [] => ([], [])
  | b :: bytes =>
    if b = backslash then
      match bytes with
      | [] => ([b], [])
      | e :: bytes => (b :: e :: (literalTail quote bytes).1, (literalTail quote bytes).2)
    else if b = newline then ([], b :: bytes)
    else if b = quote then ([b], bytes)
    else (b :: (literalTail quote bytes).1, (literalTail quote bytes).2)

/-- The value of a url, given what follows `url(`. -/
def urlValue (bytes : Bytes) : Bytes := bytes.takeWhile (· ≠ closeParen)

/-- What follows a url, given what follows `url(`. -/
def afterUrl (bytes : Bytes) : Bytes := (bytes.dropWhile (· ≠ closeParen)).drop 1

/-- A text without the quotes of either kind at its ends. -/
def unquote (text : Text) : Text := Text.trim (fun c => c == '"' || c == '\'') text

/-! ## Laws -/

/-- A literal and what follows it are the octets it was cut from. -/
theorem literalTail_append (quote : UInt8) (bytes : Bytes) :
    (literalTail quote bytes).1 ++ (literalTail quote bytes).2 = bytes := by
  fun_induction literalTail quote bytes <;> simp_all

theorem length_literalTail_le (quote : UInt8) (bytes : Bytes) :
    (literalTail quote bytes).2.length ≤ bytes.length := by
  have h := congrArg List.length (literalTail_append quote bytes)
  rw [List.length_append] at h
  omega

/-- A word that was found stood in front of what follows it. -/
theorem eq_append_of_afterWord? {word bytes after : Bytes}
    (h : afterWord? word bytes = some after) :
    bytes = bytes.take word.length ++ after := by
  fun_induction afterWord? word bytes with
  | case1 bytes => simpa using h
  | case2 => simp at h
  | case3 word b bytes ih => simpa using ih h
  | case4 => simp at h

theorem length_of_afterWord? {word bytes after : Bytes} (h : afterWord? word bytes = some after) :
    bytes.length = word.length + after.length := by
  fun_induction afterWord? word bytes with
  | case1 bytes => simp_all
  | case2 => simp at h
  | case3 word b bytes ih => have := ih h; simp; omega
  | case4 => simp at h

theorem length_afterUrl_le (bytes : Bytes) : (afterUrl bytes).length ≤ bytes.length := by
  have := (List.dropWhile_sublist (l := bytes) (· ≠ closeParen)).length_le
  simp only [afterUrl, List.length_drop]
  omega

end SheetImports.Stylesheet
