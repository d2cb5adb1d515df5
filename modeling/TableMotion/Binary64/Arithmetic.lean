import TableMotion.Binary64

/-!
# Arithmetic of double-precision numbers

Every finite number is a whole multiple of the smallest positive one, `2 ^ -1074`. An operation is
computed exactly on such multiples, as a quotient of natural numbers, and rounded once: to the
nearest number, a tie to the even magnitude (`roundUnits`).
-/

namespace TableMotion

/-- The natural number nearest to `num / den`; a half goes to the even neighbour. -/
def halfEven (num den : Nat) : Nat :=
  let quotient := num / den
  let rest := 2 * (num % den)
  if den < rest ∨ (rest = den ∧ quotient % 2 = 1) then quotient + 1 else quotient

namespace Binary64

/-- How many units of `2 ^ -1074` make one. -/
def unitsPerOne : Nat := 1 <<< 1074

/-- How many magnitudes there are between a power of two and the next. -/
def binade : Nat := 0x10000000000000

/-- How many units go into the number of a magnitude. -/
def unitsOf (magnitude : Nat) : Nat :=
  if magnitude < 2 * binade then magnitude
  else (binade + magnitude % binade) <<< (magnitude / binade - 1)

/-- The magnitude nearest to `num / den` units. The quotient is scaled so that 53 bits are left
before the point. A significand that rounds up to 54 bits carries into the exponent by the sum. -/
def roundUnits (num den : Nat) : Nat :=
  let shift := (num / den).log2 - 52
  shift * binade + halfEven num (den <<< shift)

/-- The number as a multiple of `2 ^ -1074`. -/
def units (x : Binary64) : Int :=
  if x.negative then -(unitsOf x.magnitude : Int) else unitsOf x.magnitude

/-- The number nearest to `num / den`, with a sign. -/
def ofRatio (negative : Bool) (num den : Nat) : Binary64 :=
  ofMagnitude negative (roundUnits (num * unitsPerOne) den)

/-- The number nearest to an integer. -/
def ofInt (n : Int) : Binary64 := ofRatio (n < 0) n.natAbs 1

instance (n : Nat) : OfNat Binary64 n := ⟨ofInt n⟩

def half : Binary64 := ofRatio false 1 2

protected def neg (x : Binary64) : Binary64 := { x with negative := !x.negative }

/-- The sum. Opposite infinities have none, and an operand that is not a number is the answer. An
exact zero is positive unless both operands are negative. -/
protected def add (x y : Binary64) : Binary64 :=
  if x.isNaN then x
  else if y.isNaN then y
  else if x.isInfinite then
    if y.isInfinite ∧ x.negative ≠ y.negative then nan true else x
  else if y.isInfinite then y
  else
    let sum := x.units + y.units
    if sum = 0 then zero (x.negative && y.negative)
    else ofMagnitude (sum < 0) (roundUnits sum.natAbs 1)

protected def sub (x y : Binary64) : Binary64 :=
  if x.isNaN then x
  else if y.isNaN then y
  else x.add y.neg

/-- The product. Zero times infinity has none. -/
protected def mul (x y : Binary64) : Binary64 :=
  let negative := x.negative != y.negative
  if x.isNaN then x
  else if y.isNaN then y
  else if x.isInfinite then
    if y.isZero then nan true else infinity negative
  else if y.isInfinite then
    if x.isZero then nan true else infinity negative
  else ofMagnitude negative
    (roundUnits (unitsOf x.magnitude * unitsOf y.magnitude) unitsPerOne)

/-- The quotient. Zero by zero and infinity by infinity have none; any other number by zero is
infinite. -/
protected def div (x y : Binary64) : Binary64 :=
  let negative := x.negative != y.negative
  if x.isNaN then x
  else if y.isNaN then y
  else if x.isInfinite then
    if y.isInfinite then nan true else infinity negative
  else if y.isInfinite then zero negative
  else if y.isZero then
    if x.isZero then nan true else infinity negative
  else ofMagnitude negative
    (roundUnits (unitsOf x.magnitude * unitsPerOne) (unitsOf y.magnitude))

instance : Neg Binary64 := ⟨Binary64.neg⟩
instance : Add Binary64 := ⟨Binary64.add⟩
instance : Sub Binary64 := ⟨Binary64.sub⟩
instance : Mul Binary64 := ⟨Binary64.mul⟩
instance : Div Binary64 := ⟨Binary64.div⟩

/-- The integer nearest to the number, a half going away from zero. What is not a number counts as
zero, and an infinity as `2 ^ 1024`. -/
def nearestInt (x : Binary64) : Int :=
  if x.isNaN then 0
  else
    let size : Nat := (2 * unitsOf x.magnitude + unitsPerOne) / (2 * unitsPerOne)
    if x.negative then -(size : Int) else size

/-- The greatest integer that is not above the number, read as by `nearestInt` where it is not
finite. -/
def floorInt (x : Binary64) : Int :=
  if x.isNaN then 0 else x.units.fdiv unitsPerOne

end Binary64

end TableMotion
