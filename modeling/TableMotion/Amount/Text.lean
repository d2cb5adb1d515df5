import TableMotion.Amount
import TableMotion.Text.Sign

/-!
# Amounts as text

The written form is canonical: no leading zero before the point, at most six digits behind it, and
no zero at the end. Reading accepts any number of digits on either side of the point and rounds to
the nearest millionth, a half going away from zero.
-/

namespace TableMotion

namespace Amount

/-- Why a text is no amount. -/
inductive TextError where
  | empty
  | notDecimal (text : String)
  | outOfRange (text : String)
deriving DecidableEq

def TextError.message : TextError → String
  | .empty => "amount is empty"
  | .notDecimal text => "`" ++ text ++ "` is not a decimal amount"
  | .outOfRange text => "`" ++ text ++ "` exceeds the amount range"

/-- What stands before the first point, and what stands behind it. -/
def splitPoint (cs : List Char) : List Char × List Char :=
  (cs.takeWhile (· ≠ '.'), (cs.dropWhile (· ≠ '.')).drop 1)

/-- The number that more digits make of one. It is given up at the digit that leads it out of
range. -/
def wholeOf? : Nat → List Char → Option Nat
  | n, [] => some n
  | n, c :: cs =>
    let next := 10 * n + (c.toNat - '0'.toNat)
    if 0x7FFFFFFFFFFFFFFF < next then none else wholeOf? next cs

/-- Adds digits to a count of millionths, the first `place` times and each other a tenth as often as
the one before. -/
def addPlaces : (size place : Nat) → List Char → Nat
  | size, _, [] => size
  | size, place, c :: cs => addPlaces (size + (c.toNat - '0'.toNat) * place) (place / 10) cs

/-- Adds the digits behind the point to a count of millionths. The seventh decides whether the sixth
is rounded up. -/
def addFraction (size : Nat) (fraction : List Char) : Nat :=
  addPlaces size (scale.toNat / 10) (fraction.take 6) +
    if (fraction.drop 6).head?.any ('5' ≤ ·) then 1 else 0

/-- Reads an optional sign and decimal digits with at most one point among them. -/
def ofText (text : String) : Except TextError Amount :=
  let (negative, unsigned) := Text.takeSign text.toList
  let (whole, fraction) := splitPoint unsigned
  if text = "" then .error .empty
  else if whole = [] ∧ fraction = [] then .error (.notDecimal text)
  else if ¬ (whole.all Char.isDigit ∧ fraction.all Char.isDigit) then .error (.notDecimal text)
  else
    match wholeOf? 0 whole with
    | none => .error (.outOfRange text)
    | some n =>
      let size : Int := addFraction (n * scale.toNat) fraction
      match ofRaw? (if negative then -size else size) with
      | some a => .ok a
      | none => .error (.outOfRange text)

/-- A list without the zeros at its end. -/
def dropTrailingZeros (cs : List Char) : List Char := (cs.reverse.dropWhile (· = '0')).reverse

/-- The canonical characters of an amount. -/
def chars (a : Amount) : List Char :=
  let size := a.raw.natAbs
  let sign := if a.raw < 0 then ['-'] else []
  let fraction := Nat.toDigits 10 (size % 1000000)
  let padded := List.replicate (6 - fraction.length) '0' ++ fraction
  sign ++ Nat.toDigits 10 (size / 1000000) ++
    if size % 1000000 = 0 then [] else '.' :: dropTrailingZeros padded

/-- The canonical text of an amount. -/
def text (a : Amount) : String := String.ofList a.chars

end Amount

end TableMotion
