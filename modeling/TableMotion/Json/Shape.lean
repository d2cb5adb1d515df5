import TableMotion.Json.Reader
import TableMotion.Json.Printer
import TableMotion.Text.Literal

/-!
# Reading values of a known shape

Readers for numbers, switches, texts, lists, records and named choices. A value of another shape is
reported where it stands: a scalar once it is read whole, an array or an object at its opening.

A record is read from an object by its field names or from an array by the order of its fields.
Fields that are not asked for are passed over. A choice is read from its name or from an object with
its name as the only key and `null` under it.
-/

namespace TableMotion

namespace Json

namespace Reader

/-- What was found in place of the value asked for. -/
def foundText : Json → String
  | .null => "null"
  | .bool b => "boolean `" ++ (if b then "true" else "false") ++ "`"
  | .integer n => "integer `" ++ String.ofList (integerChars n) ++ "`"
  | .real x => "floating point `" ++ String.ofList (realChars x) ++ "`"
  | .text s => "string " ++ Text.literal s
  | .array _ => "sequence"
  | .object _ => "map"

/-- Reports a value that is not the `expected` one. -/
def mismatch {α : Type} (found : Json) (expected : String) : Reader α :=
  refuse ("invalid type: " ++ foundText found ++ ", expected " ++ expected)

/-- Takes a scalar, or shows an empty array or object for one that opens here. -/
def scalar : Reader Json := do
  match ← peek with
  | some '[' => return .array []
  | some '{' => return .object []
  | _ => valueWith none

/-- Takes a scalar and converts it; one without a conversion is not the `expected` one. -/
def scalarOf {α : Type} (expected : String) (convert : Json → Option α) : Reader α := do
  let found ← scalar
  match convert found with
  | some a => return a
  | none => mismatch found expected

/-- Takes a natural number below `2 ^ 64`. -/
def natural : Reader Nat := do
  let found ← scalar
  match found with
  | .integer n =>
    if 0 ≤ n then return n.toNat
    else refuse ("invalid value: " ++ foundText found ++ ", expected u64")
  | _ => mismatch found "u64"

/-- Takes a number. -/
def binary64 : Reader Binary64 := scalarOf "f64" fun
  | .integer n => some (Binary64.ofInt n)
  | .real x => some x.1
  | _ => none

/-- Takes `true` or `false`. -/
def switch : Reader Bool := scalarOf "a boolean" fun
  | .bool b => some b
  | _ => none

/-- Takes a text. -/
def text : Reader String := scalarOf "a string" fun
  | .text s => some s
  | _ => none

/-- Takes `null` for none, or a value. -/
def optional {α : Type} (reader : Reader α) : Reader (Option α) := do
  match ← peek with
  | some 'n' => literally ['n', 'u', 'l', 'l']; return none
  | _ => return some (← reader)

/-- Opens an array or an object: gives the depth that is left inside. -/
def opened (depth : Nat) : Reader Nat :=
  match depth with
  | 0 => throw .malformed
  | inner + 1 => return inner

/-- Takes a list. Its items are given the depth that is left inside. -/
def list {α : Type} (depth : Nat) (item : Nat → Reader α) : Reader (List α) := do
  match ← peek with
  | some '[' =>
    let inner ← opened depth
    let reversed ← array (fun found => return (← item inner) :: found) []
    return reversed.reverse
  | _ => mismatch (← scalar) "a sequence"

/-! ## Records -/

/-- A field of a record that is collected in `σ`. -/
structure FieldReader (σ : Type) where
  name : String
  /-- Whether the field has been read already. -/
  isSet : σ → Bool
  /-- Takes the value, given the depth that is left. -/
  read : Nat → σ → Reader σ
  /-- Whether an object must have the field. -/
  inObject : Bool
  /-- Whether an array must reach the field. -/
  inArray : Bool

/-- The count of fields as it stands in messages. -/
def elementCount (n : Nat) : String :=
  Nat.repr n ++ (if n = 1 then " element" else " elements")

/-- Takes the member of a record under a key. -/
def memberOf {σ : Type} (fields : List (FieldReader σ)) (inner : Nat) (key : String) (s : σ) :
    Reader σ := do
  match fields.find? (·.name = key) with
  | some field =>
    if field.isSet s then refuse ("duplicate field `" ++ key ++ "`")
    separator ':'
    field.read inner s
  | none =>
    separator ':'
    skip
    return s

/-- Takes the fields of a record in their order, up to the end of an array. `index` counts those
taken. -/
def fieldsInOrder {σ : Type} (expected : String) (total inner : Nat) :
    List (FieldReader σ) → Nat → σ → Reader σ
  | [], _, s => return s
  | field :: rest, index, s => do
    if ← hasItem (index = 0) then
      fieldsInOrder expected total inner rest (index + 1) (← field.read inner s)
    else if field.inArray then
      refuse ("invalid length " ++ Nat.repr index ++ ", expected " ++ expected ++ " with " ++
        elementCount total)
    else fieldsInOrder expected total inner rest (index + 1) s

/-- Takes a record. `expected` names it in messages. -/
def record {σ : Type} (depth : Nat) (expected : String) (fields : List (FieldReader σ))
    (init : σ) : Reader σ := do
  match ← peek with
  | some '[' =>
    let inner ← opened depth
    separator '['
    let s ← fieldsInOrder expected fields.length inner fields 0 init
    separator ']'
    return s
  | some '{' =>
    let inner ← opened depth
    let s ← object (memberOf fields inner) init
    match fields.find? (fun field => field.inObject && !field.isSet s) with
    | some field => refuse ("missing field `" ++ field.name ++ "`")
    | none => return s
  | _ => mismatch (← scalar) expected

/-! ## Choices -/

/-- The names of choices as they stand in messages. -/
def choiceNames : List String → String
  | [] => "there are no variants"
  | [a] => "`" ++ a ++ "`"
  | [a, b] => "`" ++ a ++ "` or `" ++ b ++ "`"
  | names => "one of " ++ String.intercalate ", " (names.map fun a => "`" ++ a ++ "`")

/-- The choice of a name. -/
def chosen {α : Type} (choices : List (String × α)) (name : String) : Reader α :=
  match Dictionary.find? choices name with
  | some a => return a
  | none => refuse ("unknown variant `" ++ name ++ "`, expected " ++
      choiceNames (choices.map (·.1)))

/-- Takes a choice. -/
def choice {α : Type} (depth : Nat) (choices : List (String × α)) : Reader α := do
  match ← peek with
  | none => throw .truncated
  | some '"' => chosen choices (← string)
  | some '{' =>
    let _ ← opened depth
    advance
    let a ← chosen choices (← string)
    separator ':'
    scalarOf "unit" fun
      | .null => some ()
      | _ => none
    separator '}'
    return a
  | some _ => throw .malformed

end Reader

end Json

end TableMotion
