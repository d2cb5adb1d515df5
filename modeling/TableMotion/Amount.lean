import TableMotion.Binary64.Arithmetic

/-!
# Chip amounts

An amount is a whole number of millionths that fits 64 bits with a sign. Sums saturate at the ends
of the range. A conversion from a floating number is checked instead: what does not fit is no
amount.
-/

namespace TableMotion

/-- A chip amount, counted in millionths. -/
structure Amount where
  raw : Int
  inRange : -0x8000000000000000 ≤ raw ∧ raw < 0x8000000000000000
deriving DecidableEq

namespace Amount

/-- How many millionths make a whole. -/
def scale : Int := 1000000

/-- The amount of so many millionths, if it is in range. -/
def ofRaw? (raw : Int) : Option Amount :=
  if h : -0x8000000000000000 ≤ raw ∧ raw < 0x8000000000000000 then some ⟨raw, h⟩ else none

/-- The amount in range that is nearest to so many millionths. -/
def saturating (raw : Int) : Amount :=
  ⟨max (-0x8000000000000000) (min raw 0x7FFFFFFFFFFFFFFF), by omega⟩

instance : Inhabited Amount := ⟨⟨0, by decide⟩⟩

/-- A whole amount, held at the ends of the range. -/
def ofInt (n : Int) : Amount := saturating (n * scale)

/-- A whole amount, if it is in range. -/
def ofInt? (n : Int) : Option Amount := ofRaw? (n * scale)

/-- The amount nearest to a number, half a millionth going away from zero, if it is in range. -/
def ofBinary64? (x : Binary64) : Option Amount :=
  let scaled := x * Binary64.ofInt scale
  if x.isFinite ∧ scaled.isFinite then ofRaw? scaled.nearestInt else none

/-- The amount as a number: the millionths are rounded to one, and so is their quotient. -/
def toBinary64 (a : Amount) : Binary64 := Binary64.ofInt a.raw / Binary64.ofInt scale

def isWhole (a : Amount) : Bool := a.raw % scale = 0

/-- The whole part, cut toward zero. -/
def whole (a : Amount) : Int := a.raw.tdiv scale

instance : Add Amount := ⟨fun a b => saturating (a.raw + b.raw)⟩
instance : Sub Amount := ⟨fun a b => saturating (a.raw - b.raw)⟩
instance : Neg Amount := ⟨fun a => saturating (-a.raw)⟩
instance : Ord Amount := ⟨fun a b => compare a.raw b.raw⟩

/-- The amount a part `progress` of the way from `start` to `finish`, to the nearest millionth. Up
to `0` it is `start` and from `1` on it is `finish`. -/
def lerp (start finish : Amount) (progress : Binary64) : Amount :=
  if progress ≤ 0 then start
  else if 1 ≤ progress then finish
  else
    let span := Binary64.ofInt (finish.raw - start.raw)
    saturating (start.raw + (span * progress).nearestInt)

end Amount

end TableMotion
