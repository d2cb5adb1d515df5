import TableMotion.Binary64
import TableMotion.Dictionary

/-!
# JSON documents

A number is an integer when it is written without a fraction and an exponent and fits 64 bits;
otherwise it is a finite double-precision number. There is no way to write any other, so none is
held. The members of an object stand in the order in which they are written.
-/

namespace TableMotion

/-- A finite double-precision number. -/
abbrev FiniteBinary64 := { x : Binary64 // x.isFinite = true }

/-- A JSON value. -/
inductive Json where
  | null
  | bool (value : Bool)
  | integer (value : Int)
  | real (value : FiniteBinary64)
  | text (value : String)
  | array (items : List Json)
  | object (members : List (String × Json))

namespace Json

instance : Inhabited Json := ⟨.null⟩

/-- The number if it is finite. -/
def finite? (x : Binary64) : Option FiniteBinary64 :=
  if h : x.isFinite = true then some ⟨x, h⟩ else none

theorem finite?_of_isFinite {x : Binary64} (h : x.isFinite = true) : finite? x = some ⟨x, h⟩ :=
  dif_pos h

theorem eq_of_finite? {x : Binary64} {y : FiniteBinary64} (h : finite? x = some y) : x = y.1 := by
  rw [finite?] at h
  split at h
  · exact congrArg (·.1) (Option.some.inj h)
  · cases h

/-- A number; `null` stands for one that is not finite. -/
def ofBinary64 (x : Binary64) : Json := if h : x.isFinite = true then .real ⟨x, h⟩ else .null

/-- The value, or `null` for none. -/
def ofOption {α : Type} (write : α → Json) : Option α → Json
  | some a => write a
  | none => .null

end Json

end TableMotion
