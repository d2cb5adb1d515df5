import TableMotion.Binary64.Shortest
import TableMotion.Text.Sign

/-!
# Numbers as text

A number is written with the fewest digits whose nearest number it is, laid out by a `NumberStyle`.
`Binary64.ofText?` is the grammar of a number given on a command line: it is read from decimal digits
and a power of ten and rounded once (`Binary64.ofDecimal`).
-/

namespace TableMotion

/-- How a finite number is laid out. The exponent of a number is that of its first digit. -/
structure NumberStyle where
  /-- The least exponent written without a power of ten; any if absent. -/
  leastPlain : Option Int
  /-- The greatest exponent written without a power of ten; any if absent. -/
  greatestPlain : Option Int
  /-- Whether a whole number keeps a point and a zero. -/
  keepsPoint : Bool
  /-- Which of two equally near decimals is written. -/
  tie : DecimalTie

namespace NumberStyle

/-- Exponents `-5` to `15` are written plainly, always with a fraction; `e` and a sign introduce
any other. -/
def document : NumberStyle := ⟨some (-5), some 15, true, .toEven⟩

/-- Never an exponent, and no fraction for a whole number. -/
def plain : NumberStyle := ⟨none, none, false, .up⟩

/-- Whether a decimal with this exponent is written without a power of ten. -/
def isPlain (style : NumberStyle) (exponent : Int) : Bool :=
  style.leastPlain.all (· ≤ exponent) && style.greatestPlain.all (exponent ≤ ·)

/-- A decimal without a power of ten. -/
def positional (style : NumberStyle) (d : Decimal) : List Char :=
  let digits := Nat.toDigits 10 d.digits
  if 0 ≤ d.exponent then
    digits ++ List.replicate d.exponent.toNat '0' ++ (if style.keepsPoint then ['.', '0'] else [])
  else
    let places := (-d.exponent).toNat
    let padded := List.replicate (places + 1 - digits.length) '0' ++ digits
    padded.take (padded.length - places) ++ '.' :: padded.drop (padded.length - places)

/-- A decimal with one digit before the point and a power of ten. -/
def scientific (d : Decimal) (exponent : Int) : List Char :=
  let mantissa := match Nat.toDigits 10 d.digits with
    | [] => []
    | [c] => [c]
    | c :: rest => c :: '.' :: rest
  mantissa ++ 'e' :: (if exponent < 0 then '-' else '+') :: Nat.toDigits 10 exponent.natAbs

/-- The text of a nonnegative decimal. -/
def write (style : NumberStyle) (d : Decimal) : List Char :=
  let exponent := d.exponent + (Nat.toDigits 10 d.digits).length - 1
  if d.digits = 0 then style.positional ⟨0, 0⟩
  else if style.isPlain exponent then style.positional d
  else scientific d exponent

/-- The text of a number. -/
def text (style : NumberStyle) (x : Binary64) : String :=
  if x.isNaN then "NaN"
  else
    let sign := if x.negative then ['-'] else []
    if x.isInfinite then String.ofList (sign ++ ['i', 'n', 'f'])
    else String.ofList (sign ++ style.write (Binary64.shortest style.tie x.magnitude))

end NumberStyle

namespace Binary64

/-- The text without an exponent, as in messages. -/
def plainText (x : Binary64) : String := NumberStyle.plain.text x

/-- The number nearest to `digits · 10 ^ exponent`, with a sign. Exponents far outside the range
are answered without computing the power. -/
def ofDecimal (negative : Bool) (d : Decimal) : Binary64 :=
  if d.digits = 0 then zero negative
  else if 400 < d.exponent then infinity negative
  else if (d.digits.log2 : Int) + d.exponent < -400 then zero negative
  else ofRatio negative (d.digits * tenTo d.exponent.toNat) (tenTo (-d.exponent).toNat)

/-- The power of ten after the digits of a number: nothing, or `e`, an optional sign and at least
one digit. -/
def exponentOfText? : List Char → Option Int
  | [] => some 0
  | c :: cs =>
    let (negative, digits) := Text.takeSign cs
    if (c = 'e' ∨ c = 'E') ∧ digits ≠ [] ∧ digits.all Char.isDigit then
      some (if negative then -(Nat.ofDigitChars 10 digits 0 : Int)
      else Nat.ofDigitChars 10 digits 0)
    else none

/-- Digits with at most one point among them, at least one digit, and an optional power of ten. -/
def decimalOfText? (cs : List Char) : Option Decimal :=
  let (whole, rest) := cs.span Char.isDigit
  let (fraction, rest) := match rest with
    | '.' :: tail => tail.span Char.isDigit
    | _ => ([], rest)
  if whole = [] ∧ fraction = [] then none
  else (exponentOfText? rest).map fun e =>
    ⟨Nat.ofDigitChars 10 (whole ++ fraction) 0, e - fraction.length⟩

/-- Reads a number: an optional sign, then `inf`, `infinity` or `nan` in any case, or a decimal. -/
def ofText? (text : String) : Option Binary64 :=
  let (negative, body) := Text.takeSign text.toList
  let word := String.ofList (body.map Char.toLower)
  if word = "inf" ∨ word = "infinity" then some (infinity negative)
  else if word = "nan" then some (nan negative)
  else (decimalOfText? body).map (ofDecimal negative)

end Binary64

end TableMotion
