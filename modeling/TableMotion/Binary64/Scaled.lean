import TableMotion.Binary64.Shortest

/-!
# Decimals scaled by powers of ten

A decimal is read without long arithmetic when its digits are rounded to a number and that number is
multiplied or divided by a power of ten, itself rounded. What comes of it was rounded more than once
and need not be the number nearest to the decimal.
-/

namespace TableMotion

namespace Binary64

/-- The number nearest to a power of ten. -/
def powerOfTen (exponent : Nat) : Binary64 := ofRatio false (tenTo exponent) 1

/-- The exponent of the greatest power of ten that is finite. -/
def greatestExponent : Nat := 308

/-- Divides by the greatest power of ten so many times, or until nothing is left. -/
def divGreatest : Nat → Binary64 → Binary64
  | 0, x => x
  | n + 1, x => if x.isZero then x else divGreatest n (x / powerOfTen greatestExponent)

/-- Multiplies by a power of ten, or divides by one where the exponent is negative. A power that is
not finite has an infinite product with all but zero; one divides by it in steps. -/
def scale (x : Binary64) (exponent : Int) : Binary64 :=
  if 0 ≤ exponent then
    if exponent ≤ greatestExponent then x * powerOfTen exponent.toNat
    else if x.isZero then x
    else infinity false
  else
    let size := (-exponent).toNat
    let steps := (size - 1) / greatestExponent
    divGreatest steps x / powerOfTen (size - greatestExponent * steps)

/-- The number as which `digits · 10 ^ exponent` is read, with a sign. -/
def ofScaled (negative : Bool) (d : Decimal) : Binary64 :=
  let x := scale (ofInt d.digits) d.exponent
  if negative then -x else x

end Binary64

end TableMotion
