import SheetImports.Json.Basic

/-!
# Reading JSON numbers

A number is read as its parts (`Spelling`) and then valued. An integer that fits into 64 bits is
exact. Every other number becomes a double in two roundings: as many leading digits as fit into 64
bits are rounded to a double, and that is multiplied or divided by the power of ten that is left.
A number too large for a double is refused, one too small is zero.
-/

namespace SheetImports.Json

open Text (isDigit digitValue natValue)

/-- The parts of a number as it is written. -/
structure Spelling where
  negative : Bool
  whole : Text
  /-- The digits after a point, if there is one. -/
  fraction : Option Text
  /-- Whether the exponent is negative and its digits, if there is one. -/
  exponent : Option (Bool × Text)
  deriving DecidableEq, Repr

/-- The digits that the text begins with, at least one of them, and what follows. -/
def digits? (text : Text) : Option (Text × Text) :=
  match text.takeWhile isDigit with
  | [] => none
  | digits => some (digits, text.dropWhile isDigit)

/-- What follows one of the given characters. -/
def after? (marks : List Char) : Text → Option Text
  | c :: text => if c ∈ marks then some text else none
  | [] => none

/-- The number that the text begins with, and what follows. A zero in front stands alone, and a
point and an exponent mark have digits behind them. -/
def spelling? (text : Text) : Option (Spelling × Text) := do
  let (negative, text) := (after? ['-'] text).elim (false, text) ((true, ·))
  let (whole, text) ← digits? text
  if whole.head? = some '0' ∧ whole ≠ ['0'] then none
  let (fraction, text) ←
    match after? ['.'] text with
    | some text => do
      let (digits, text) ← digits? text
      pure (some digits, text)
    | none => pure (none, text)
  let (exponent, text) ←
    match after? ['e', 'E'] text with
    | some text => do
      let minus := (after? ['-'] text).isSome
      let (digits, text) ← digits? ((after? ['+', '-'] text).getD text)
      pure (some (minus, digits), text)
    | none => pure (none, text)
  pure (⟨negative, whole, fraction, exponent⟩, text)

/-! ## Value -/

/-- The largest number that fits into 64 bits. -/
def maxWord : Nat := UInt64.size - 1

/-- The largest exponent that is not out of range whatever the digits are. -/
def maxExponent : Nat := 0x7FFFFFFF

/-- The number written by a digit after those of `n`, and so on while it fits into 64 bits, and the
digits that did not fit. -/
def absorb (n : Nat) : Text → Nat × Text
  | [] => (n, [])
  | c :: digits =>
    if n * 10 + digitValue c ≤ maxWord then absorb (n * 10 + digitValue c) digits
    else (n, c :: digits)

/-- A power of ten as a double. -/
def powerOfTen (e : Nat) : Float := Float.ofScientific 1 false e

/-- The largest power of ten that is a double. -/
def maxPower : Nat := 308

/-- A double divided by a power of ten, in steps that a double can hold. -/
def divide (x : Float) (e : Nat) : Float :=
  if e ≤ maxPower then x / powerOfTen e
  else if x == 0 then x
  else divide (x / powerOfTen maxPower) (e - maxPower)
termination_by e
decreasing_by simp only [maxPower] at *; omega

/-- The double for `significand * 10 ^ exponent`, if there is one. -/
def double? (significand : Nat) (exponent : Int) : Option Float :=
  let x := (UInt64.ofNat significand).toFloat
  if exponent < 0 then some (divide x exponent.natAbs)
  else if maxPower < exponent.natAbs then if significand = 0 then some x else none
  else
    let product := x * powerOfTen exponent.natAbs
    if product.isInf then none else some product

/-- The value of a number, if it is in range. -/
def Spelling.value? (spelling : Spelling) : Option Number :=
  let (significand, spare) := absorb 0 spelling.whole
  let sign (x : Float) : Number := .double (if spelling.negative then -x else x)
  match spelling.fraction, spelling.exponent, spare with
  | none, none, [] =>
    if !spelling.negative then some (.integer significand)
    else if significand = 0 ∨ 0x8000000000000000 < significand then
      some (sign (UInt64.ofNat significand).toFloat)
    else some (.integer (-significand))
  | fraction, exponent, spare =>
    let digits := fraction.getD []
    let (significand, unused) := absorb significand digits
    let shift : Int := spare.length - (digits.length - unused.length : Nat)
    match exponent with
    | none => (double? significand shift).map sign
    | some (minus, digits) =>
      let e := natValue digits
      if maxExponent < e then if significand = 0 ∨ minus then some (sign 0) else none
      else (double? significand (if minus then shift - e else shift + e)).map sign

end SheetImports.Json
