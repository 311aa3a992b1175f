import SheetImports.Text.Basic

/-!
# The shortest decimal of a double

A finite double stands for every real number that rounds to it. Of the decimals in that interval
with the fewest digits, `shortest` is the one nearest to the double, the even one of two equally
near. The interval holds its ends exactly if the significand is even, since a tie rounds to even.
-/

namespace SheetImports.Decimal

/-- A decimal number: its significant digits as a number, and the power of ten they count. -/
structure Digits where
  coefficient : Nat
  exponent : Int
  deriving DecidableEq, Repr

/-- A positive double as `significand * 2 ^ exponent`. -/
structure Binary where
  significand : Nat
  exponent : Int
  deriving DecidableEq, Repr

/-- The leading bit of a significand, which the bits of a double leave out. -/
def hiddenBit : Nat := 0x10000000000000

/-- The size of a finite double, given its bits. -/
def Binary.ofBits (bits : UInt64) : Binary :=
  let fraction := (bits &&& 0xFFFFFFFFFFFFF).toNat
  let biased := ((bits >>> 52) &&& 0x7FF).toNat
  if biased = 0 then ⟨fraction, -1074⟩ else ⟨fraction + hiddenBit, biased - 1075⟩

/-- The number `n * b ^ e`, or `n` if the exponent is negative. -/
def scale (n b : Nat) (e : Int) : Nat := n * b.pow e.toNat

/-- The decimals with exponent `k` next to a double, if one of them rounds to it; the nearer of
two. -/
def onGrid? (x : Binary) (k : Int) : Option Digits :=
  let unit := x.exponent - 2
  let below := if x.significand = hiddenBit ∧ -1074 < x.exponent then 1 else 2
  let bound n := scale (scale n 2 unit) 10 (-k)
  let point d := scale (scale d 2 (-unit)) 10 k
  let low := bound (4 * x.significand - below)
  let here := bound (4 * x.significand)
  let high := bound (4 * x.significand + 2)
  let inside d :=
    if x.significand % 2 = 0 then low ≤ point d ∧ point d ≤ high
    else low < point d ∧ point d < high
  let floor := here / point 1
  let nearer :=
    let toFloor := here - point floor
    let toNext := point (floor + 1) - here
    if toFloor < toNext ∨ (toFloor = toNext ∧ floor % 2 = 0) then [floor, floor + 1]
    else [floor + 1, floor]
  (nearer.find? fun d => inside d).map (⟨·, k⟩)

/-- The exponent of the first digit of a double. -/
def leading (x : Binary) : Int :=
  let shifted := scale (scale x.significand 2 x.exponent) 10 400 / scale 1 2 (-x.exponent)
  (Nat.toDigits 10 shifted).length - 401

/-- The digits without zeros at the end. -/
def Digits.strip (x : Digits) : Digits :=
  let digits := Nat.toDigits 10 x.coefficient
  let zeros := (digits.reverse.takeWhile (· == '0')).length
  ⟨x.coefficient / Nat.pow 10 zeros, x.exponent + zeros⟩

/-- The shortest decimal that rounds to a positive double; seventeen digits always do. -/
def shortest (x : Binary) : Digits :=
  let first := leading x
  (((List.range 17).findSome? fun (n : Nat) => onGrid? x (first - n)).getD ⟨0, 0⟩).strip

end SheetImports.Decimal
