import SheetImports.Json.Basic

/-!
# Printing JSON

JSON values in one line, without spaces. A double has the fewest digits that read back; it is
written in positions, with at least one digit after the point, if its first digit stands at most
sixteen places before the point or four zeros after it, and with a signed exponent otherwise.
-/

namespace SheetImports.Json

/-- How a double is laid out. -/
structure DoubleFormat where
  /-- The most digits before the point in positional notation. -/
  maxWhole : Int
  /-- The most zeros between the point and the first digit in positional notation. -/
  maxZeros : Int
  /-- What stands before the digits of an exponent that is not negative. -/
  exponentSign : Text

/-- The layout of doubles in JSON. -/
def doubleFormat : DoubleFormat := ⟨16, 4, ['+']⟩

/-- The digits of a decimal number in the given layout. -/
def layout (format : DoubleFormat) (x : Decimal.Digits) : Text :=
  let digits := Text.ofNat x.coefficient
  let point : Int := digits.length + x.exponent
  let zeros (n : Int) : Text := List.replicate n.toNat '0'
  if 0 ≤ x.exponent ∧ point ≤ format.maxWhole then digits ++ zeros x.exponent ++ ".0".toList
  else if 0 < point ∧ point ≤ format.maxWhole then
    digits.take point.toNat ++ ['.'] ++ digits.drop point.toNat
  else if -format.maxZeros ≤ point ∧ point ≤ 0 then "0.".toList ++ zeros (-point) ++ digits
  else
    let mantissa := if digits.length ≤ 1 then digits else digits.take 1 ++ ['.'] ++ digits.drop 1
    let sign := if point - 1 < 0 then ['-'] else format.exponentSign
    mantissa ++ ['e'] ++ sign ++ Text.ofNat (point - 1).natAbs

/-- A double as JSON writes it. -/
def printDouble (x : Float) : Text :=
  let bits := x.toBits
  let sign := if bits >>> 63 = 0 then [] else ['-']
  let size := Decimal.Binary.ofBits bits
  sign ++ if size.significand = 0 then "0.0".toList
    else layout doubleFormat (Decimal.shortest size)

/-- An integer in decimal digits. -/
def printInt : Int → Text
  | .ofNat n => Text.ofNat n
  | .negSucc n => '-' :: Text.ofNat (n + 1)

/-- A number as JSON writes it. -/
def Number.print : Number → Text
  | integer n => printInt n
  | double x => printDouble x

/-- A character as it is written in a string: quotes, backslashes and controls are escaped. -/
def escape (c : Char) : Text :=
  match c with
  | '"' => ['\\', '"']
  | '\\' => ['\\', '\\']
  | '\x08' => ['\\', 'b']
  | '\t' => ['\\', 't']
  | '\n' => ['\\', 'n']
  | '\x0c' => ['\\', 'f']
  | '\r' => ['\\', 'r']
  | c =>
    if c.toNat < 0x10 then "\\u000".toList ++ Text.ofNatHex c.toNat
    else if c.toNat < 0x20 then "\\u00".toList ++ Text.ofNatHex c.toNat
    else [c]

/-- A text between quotes, with escapes. -/
def printString (text : Text) : Text := ['"'] ++ text.flatMap escape ++ ['"']

mutual

/-- A value in one line, without spaces. -/
def print : Json → Text
  | null => "null".toList
  | bool b => if b then "true".toList else "false".toList
  | number n => n.print
  | string text => printString text
  | array elements => ['['] ++ [','].intercalate (printList elements) ++ [']']
  | object members => ['\x7b'] ++ [','].intercalate (printMembers members) ++ ['\x7d']

/-- The elements of an array, each in one line. -/
def printList : List Json → List Text
  | [] => []
  | value :: values => value.print :: printList values

/-- The members of an object, each in one line. -/
def printMembers : List (Text × Json) → List Text
  | [] => []
  | (name, value) :: members => (printString name ++ [':'] ++ value.print) :: printMembers members

end

end SheetImports.Json
