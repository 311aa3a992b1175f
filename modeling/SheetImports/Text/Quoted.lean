import SheetImports.Text.Hidden

/-!
# Quoted text

A quoted text stands between double quotes. A quote and a backslash in it take a backslash, tab,
line feed, carriage return and NUL have short names, and every other hidden character
(`Text.isHidden`) is written by its number. All else stands as it is, so that a target can be read
off its written form.
-/

namespace SheetImports.Text

/-- A character as it is written between quotes. -/
def escape (c : Char) : Text :=
  match c with
  | '"' => ['\\', '"']
  | '\\' => ['\\', '\\']
  | '\t' => ['\\', 't']
  | '\n' => ['\\', 'n']
  | '\r' => ['\\', 'r']
  | '\x00' => ['\\', '0']
  | c => if isHidden c then ['\\', 'u', '\x7b'] ++ ofNatHex c.toNat ++ ['\x7d'] else [c]

/-- A text between double quotes. -/
def quoted (text : Text) : Text := ['"'] ++ text.flatMap escape ++ ['"']

end SheetImports.Text
