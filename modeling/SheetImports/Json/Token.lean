import SheetImports.Json.Number

/-!
# Tokens of JSON

`tokens?` cuts a JSON text into tokens; it fails where the text has something that is no token. A
string may hold every character but a quote, a backslash and the controls, and escapes. An escape
of half a surrogate pair must be followed by one of the other half.
-/

namespace SheetImports.Json

/-- A token of JSON. -/
inductive Token where
  | openArray
  | closeArray
  | openObject
  | closeObject
  | comma
  | colon
  /-- A value that holds no other. -/
  | scalar (value : Json)
  | string (text : Text)

/-- The value of four hexadecimal digits, and what follows. -/
def hexQuad? : Text → Option (Nat × Text)
  | a :: b :: c :: d :: text => do
    let digit (c : Char) : Option Nat :=
      if Text.isDigit c then some (Text.digitValue c)
      else if 'a' ≤ c ∧ c ≤ 'f' then some (c.toNat - 'a'.toNat + 10)
      else if 'A' ≤ c ∧ c ≤ 'F' then some (c.toNat - 'A'.toNat + 10)
      else none
    let value := (((← digit a) * 16 + (← digit b)) * 16 + (← digit c)) * 16 + (← digit d)
    pure (value, text)
  | _ => none

/-- The character of an escape after `\u`, and what follows. -/
def unicodeEscape? (text : Text) : Option (Char × Text) := do
  let (unit, text) ← hexQuad? text
  if 0xD800 ≤ unit ∧ unit < 0xDC00 then
    let text ← "\\u".toList.isPrefixOf? text
    let (second, text) ← hexQuad? text
    if 0xDC00 ≤ second ∧ second < 0xE000 then
      pure (Char.ofNat (0x10000 + (unit - 0xD800) * 0x400 + (second - 0xDC00)), text)
    else none
  else if 0xDC00 ≤ unit ∧ unit < 0xE000 then none
  else pure (Char.ofNat unit, text)

/-- The character that a string goes on with, written as itself or as an escape, and what
follows. -/
def character? : Text → Option (Char × Text)
  | '\\' :: c :: text =>
    match c with
    | '"' => some ('"', text)
    | '\\' => some ('\\', text)
    | '/' => some ('/', text)
    | 'b' => some ('\x08', text)
    | 'f' => some ('\x0c', text)
    | 'n' => some ('\n', text)
    | 'r' => some ('\r', text)
    | 't' => some ('\t', text)
    | 'u' => unicodeEscape? text
    | _ => none
  | c :: text => if c = '\\' ∨ c.toNat < 0x20 then none else some (c, text)
  | [] => none

/-- The text of a string after its opening quote, and what follows the string. The number of steps
is bounded, and as many as there are characters are enough. -/
def stringBody? : Nat → Text → Option (Text × Text)
  | 0, _ => none
  | steps + 1, text =>
    match text with
    | '"' :: text => some ([], text)
    | text => do
      let (c, text) ← character? text
      let (body, text) ← stringBody? steps text
      pure (c :: body, text)

/-- The token that begins with the character `c`, and what follows. -/
def token? (c : Char) (text : Text) : Option (Token × Text) :=
  match c with
  | '[' => some (.openArray, text)
  | ']' => some (.closeArray, text)
  | '\x7b' => some (.openObject, text)
  | '\x7d' => some (.closeObject, text)
  | ',' => some (.comma, text)
  | ':' => some (.colon, text)
  | '"' => (stringBody? (text.length + 1) text).map fun (body, text) => (.string body, text)
  | 'n' => ("ull".toList.isPrefixOf? text).map (.scalar .null, ·)
  | 't' => ("rue".toList.isPrefixOf? text).map (.scalar (.bool true), ·)
  | 'f' => ("alse".toList.isPrefixOf? text).map (.scalar (.bool false), ·)
  | c => do
    let (spelling, text) ← spelling? (c :: text)
    pure (.scalar (.number (← spelling.value?)), text)

/-- The characters that may stand between tokens. -/
def isSpace (c : Char) : Bool := c == ' ' || c == '\t' || c == '\n' || c == '\r'

/-- The tokens of a text, read in at most as many steps. -/
def tokensIn? : Nat → Text → Option (List Token)
  | _, [] => some []
  | 0, _ => none
  | steps + 1, c :: text =>
    if isSpace c then tokensIn? steps text
    else do
      let (token, text) ← token? c text
      let others ← tokensIn? steps text
      pure (token :: others)

/-- The tokens of a text. Each takes at least one character. -/
def tokens? (text : Text) : Option (List Token) := tokensIn? text.length text

end SheetImports.Json
