import SheetImports.Text.Basic

/-!
# Blank characters

The characters with the Unicode property White_Space, and trimming by them. The library's directive
scanner has a narrower set of its own: there only five ASCII characters separate words.
-/

namespace SheetImports.Text

/-- The characters with the property White_Space. -/
def isBlank (c : Char) : Bool :=
  let n := c.toNat
  (0x09 ≤ n && n ≤ 0x0D) || n == 0x20 || n == 0x85 || n == 0xA0 || n == 0x1680
    || (0x2000 ≤ n && n ≤ 0x200A) || n == 0x2028 || n == 0x2029 || n == 0x202F || n == 0x205F
    || n == 0x3000

/-- The text without blank characters at either end. -/
def trimBlank (text : Text) : Text := trim isBlank text

end SheetImports.Text
