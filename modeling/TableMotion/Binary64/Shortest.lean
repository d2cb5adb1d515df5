import TableMotion.Binary64.Arithmetic

/-!
# The fewest digits that read back

The decimals that read as a given number form an interval between the midpoints to its neighbours,
ends included when its magnitude is even. `shortest` looks for a decimal in it with one digit, then
two, and so on, trying on each decimal grid the two points next to the number. All comparisons are
exact: bounds and candidates are natural numbers over a common denominator.
-/

namespace TableMotion

/-- The decimal `digits · 10 ^ exponent`. -/
structure Decimal where
  digits : Nat
  exponent : Int
deriving DecidableEq

/-- Which of two equally near decimals is taken: the one with an even last digit, or the upper. -/
inductive DecimalTie where
  | toEven
  | up
deriving DecidableEq

/-- The power of ten with an exponent. -/
def tenTo (exponent : Nat) : Nat := Nat.pow 10 exponent

/-- How many decimal digits a natural number has, none for zero. -/
def digitCount (n : Nat) : Nat := if n = 0 then 0 else (Nat.toDigits 10 n).length

namespace Binary64

/-- The least `k` with `x < 10 ^ k` for `x = num / den`, so that `x` has `k` digits before the
point, or `-k` zeros behind it. -/
def decimalWidth (num den : Nat) : Int :=
  if den ≤ num then digitCount (num / den) else 1 - digitCount ((den - 1) / num)

/-- The decimals `c · 10 ^ power` that read as the number of a magnitude. Units are halved so that
the midpoints are whole. -/
def readsAs (magnitude : Nat) (power : Int) (c : Nat) : Bool :=
  let low := unitsOf (magnitude - 1) + unitsOf magnitude
  let high := unitsOf magnitude + unitsOf (magnitude + 1)
  let point := c * tenTo power.toNat * (2 * unitsPerOne)
  let scale := tenTo (-power).toNat
  if magnitude % 2 = 0 then low * scale ≤ point ∧ point ≤ high * scale
  else low * scale < point ∧ point < high * scale

/-- Of the two points `c` and `c + 1` of a grid around the number, the one that reads as it and is
nearer. -/
def nearestOnGrid (tie : DecimalTie) (magnitude : Nat) (power : Int) : Option Nat :=
  let number := 2 * unitsOf magnitude * tenTo (-power).toNat
  let step := tenTo power.toNat * (2 * unitsPerOne)
  let c := number / step
  match readsAs magnitude power c, readsAs magnitude power (c + 1) with
  | false, false => none
  | true, false => some c
  | false, true => some (c + 1)
  | true, true =>
    match compare (2 * (number % step)) step, tie with
    | .lt, _ => some c
    | .gt, _ => some (c + 1)
    | .eq, .up => some (c + 1)
    | .eq, .toEven => some (if c % 2 = 0 then c else c + 1)

/-- The number of a magnitude as a decimal, to the last digit. -/
def exactDecimal (magnitude : Nat) : Decimal := ⟨unitsOf magnitude * Nat.pow 5 1074, -1074⟩

/-- A decimal without zeros at its end. -/
def trimmed : Nat → Decimal → Decimal
  | 0, d => d
  | fuel + 1, d =>
    if d.digits ≠ 0 ∧ d.digits % 10 = 0 then trimmed fuel ⟨d.digits / 10, d.exponent + 1⟩ else d

/-- The decimal with the fewest digits that reads as the finite number of a magnitude, and of
these the nearest. Seventeen digits are always enough. -/
def shortest (tie : DecimalTie) (magnitude : Nat) : Decimal :=
  let width := decimalWidth (unitsOf magnitude) unitsPerOne
  let found := (List.range 17).findSome? fun (n : Nat) =>
    let power := width - (n + 1)
    (nearestOnGrid tie magnitude power).map fun c => (⟨c, power⟩ : Decimal)
  match found with
  | some d => trimmed 17 d
  | none => exactDecimal magnitude

end Binary64

end TableMotion
