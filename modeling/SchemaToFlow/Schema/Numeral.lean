/-!
# The values of number tokens

`int64?` reads an integer token digit by digit into 64 bits with a sign, and gives up where they do
not suffice; `intValue` is the number that digits write, of any size. `binary64` is the binary
floating-point number nearest to what a float token writes, a tie going to the even neighbour; a
number too large for the format becomes infinity. Its arithmetic is exact throughout, on natural
numbers.

gqlflow's `parse_value` leaves both to its standard library, whose rules these are.
-/

namespace SchemaToFlow.Schema.Numeral

/-- The number that a row of decimal digits writes. -/
def digitsValue (digits : List Char) : Nat :=
  digits.foldl (fun n d => 10 * n + (d.toNat - '0'.toNat)) 0

/-- The number that digits write, with an optional minus sign before them. -/
def intValue : List Char → Int
  | '-' :: digits => -(digitsValue digits : Int)
  | digits => digitsValue digits

/-- A whole number in 64 bits with a sign, if it fits. -/
def fit64? (n : Int) : Option Int64 :=
  if Int64.minValue.toInt ≤ n ∧ n ≤ Int64.maxValue.toInt then some (.ofInt n) else none

/-- A number with one more digit: ten times as much, and then the digit is added or, in a negative
number, taken away. Both steps have to fit in 64 bits. -/
def pushDigit? (negative : Bool) (n : Int64) (d : Char) : Option Int64 := do
  let tens ← fit64? (10 * n.toInt)
  let digit := d.toNat - '0'.toNat
  fit64? (if negative then tens.toInt - digit else tens.toInt + digit)

/-- The value of an integer token, if it fits in 64 bits with a sign. -/
def int64? (text : String) : Option Int :=
  match text.toList with
  | '-' :: digits => (digits.foldlM (pushDigit? true) 0).map Int64.toInt
  | digits => (digits.foldlM (pushDigit? false) 0).map Int64.toInt

/-- A decimal number: sign, digits as a whole number, and the power of ten to scale it by. -/
structure Decimal where
  negative : Bool
  mantissa : Nat
  exponent : Int
  deriving DecidableEq, Repr

/-- The exponent that the text after a number's digits writes; without its mark it is zero, and a
mark without digits is no exponent. -/
def exponentValue? : List Char → Option Int
  | [] => some 0
  | _ :: '-' :: [] => none
  | _ :: '+' :: [] => none
  | _ :: [] => none
  | _ :: '+' :: digits => some (digitsValue digits)
  | _ :: cs => some (intValue cs)

/-- The decimal number that a number token writes, if its exponent has digits. -/
def decimal? (text : List Char) : Option Decimal :=
  let negative := text.head? = some '-'
  let unsigned := if negative then text.tail else text
  let whole := unsigned.takeWhile Char.isDigit
  let afterWhole := unsigned.dropWhile Char.isDigit
  let point := afterWhole.head? = some '.'
  let fraction := if point then afterWhole.tail.takeWhile Char.isDigit else []
  let rest := if point then afterWhole.tail.dropWhile Char.isDigit else afterWhole
  (exponentValue? rest).map fun e =>
    ⟨negative, digitsValue (whole ++ fraction), e - fraction.length⟩

/-- Quotient rounded to the nearest whole number, a half going to the even neighbour. -/
def roundDiv (num den : Nat) : Nat :=
  let q := num / den
  let r := num % den
  if 2 * r < den then q
  else if den < 2 * r then q + 1
  else q + q % 2

/-- The bit pattern of infinity. -/
def infinityBits : Nat := 0x7ff <<< 52

/-- The bit pattern of the 64-bit number nearest to `num / den`, for `num` and `den` not zero: the
number is written as a whole number below `2 ^ 53` times a power of two, the least power allowed
being `2 ^ (-1074)`. -/
def quotientBits (num den : Nat) : Nat :=
  let estimate : Int := Nat.log2 num - Nat.log2 den
  let belowPower := if 0 ≤ estimate then num < den <<< estimate.toNat
    else num <<< (-estimate).toNat < den
  let magnitude := if belowPower then estimate - 1 else estimate
  let power := max (magnitude - 52) (-1074)
  let significand := if 0 ≤ power then roundDiv num (den <<< power.toNat)
    else roundDiv (num <<< (-power).toNat) den
  min infinityBits ((power + 1074).toNat <<< 52 + significand)

/-- Number of decimal digits of a number. -/
def digitLength (n : Nat) : Nat := (Nat.toDigits 10 n).length

namespace Decimal

/-- The bit pattern of the 64-bit floating-point number nearest to the size of a decimal number.
Sizes beyond every finite number, or below half the least one, are told by their number of digits. -/
def magnitudeBits (d : Decimal) : Nat :=
  let digits : Int := digitLength d.mantissa + d.exponent
  if d.mantissa = 0 ∨ digits < -330 then 0
  else if 320 < digits then infinityBits
  else if 0 ≤ d.exponent then quotientBits (d.mantissa * Nat.pow 10 d.exponent.toNat) 1
  else quotientBits d.mantissa (Nat.pow 10 (-d.exponent).toNat)

/-- The bit pattern of the 64-bit floating-point number nearest to a decimal number. -/
def bits (d : Decimal) : UInt64 :=
  .ofNat (d.magnitudeBits + if d.negative then 1 <<< 63 else 0)

end Decimal

/-- The bit pattern of the 64-bit floating-point number nearest to what a number token writes; a
token that writes no number counts as zero. -/
def binary64 (text : String) : UInt64 :=
  ((decimal? text.toList).map Decimal.bits).getD 0

end SchemaToFlow.Schema.Numeral
