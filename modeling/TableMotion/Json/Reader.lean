import TableMotion.Json
import TableMotion.Binary64.Scaled
import TableMotion.Text.Position

/-!
# Reading JSON

A reader takes characters off the front of a text. The first problem met from left to right is the
one reported: a text that ends too early is told apart from one that breaks the grammar, and both
from a value that is not the one asked for.

`value` holds what it reads, and so limits nesting, the range of numbers and the pairing of
surrogates. `skip` passes over a value that nobody asks for and checks the grammar alone. A number
that is no integer is scaled by a power of ten, so it may be read as a neighbour of the nearest one.
-/

namespace TableMotion

namespace Json

/-- Why a text is not the JSON asked for. -/
inductive Fault where
  /-- The grammar is broken. -/
  | malformed
  /-- The text ends too early. -/
  | truncated
  /-- A value is not the one asked for. -/
  | unsuitable (message : String)
deriving DecidableEq

def Fault.message : Fault → String
  | .malformed => "the text is not JSON"
  | .truncated => "the text ends too early"
  | .unsuitable message => message

/-- Takes characters off the front of a text. -/
abbrev Reader := StateT (List Char) (Except Fault)

namespace Reader

/-- Reports a value that is not the one asked for. Its place is not part of the message, which
therefore loses a position that it ends in. -/
def refuse {α : Type} (message : String) : Reader α :=
  throw (.unsuitable (Text.withoutPosition message))

/-- Blanks between the parts of a document. -/
def isBlank (c : Char) : Bool := c = ' ' || c = '\t' || c = '\n' || c = '\r'

/-- Passes over blanks and shows the next character. -/
def peek : Reader (Option Char) := do
  let rest := (← get).dropWhile isBlank
  set rest
  return rest.head?

/-- Passes over one character. -/
def advance : Reader Unit := modify (List.drop 1)

/-- Takes the next character. -/
def next : Reader Char := do
  match ← get with
  | [] => throw .truncated
  | c :: rest => set rest; return c

/-- Passes over the given characters. -/
def literally : List Char → Reader Unit
  | [] => pure ()
  | c :: cs => do
    if (← next) = c then literally cs else throw .malformed

/-- Passes over blanks and one given character. -/
def separator (c : Char) : Reader Unit := do
  match ← peek with
  | none => throw .truncated
  | some d => if d = c then advance else throw .malformed

/-! ## Numbers -/

/-- Takes digits, as many as there are. -/
def digits : Reader (List Char) := do
  let cs ← get
  set (cs.dropWhile Char.isDigit)
  return cs.takeWhile Char.isDigit

/-- Takes digits, at least one. `atEnd` is the fault of a text that ends instead. -/
def someDigits (atEnd : Fault) : Reader (List Char) := do
  match ← get with
  | [] => throw atEnd
  | c :: _ => if c.isDigit then digits else throw .malformed

/-- Takes the digits before the point: a zero stands alone. -/
def wholeDigits (atEnd : Fault) : Reader (List Char) := do
  let cs ← someDigits atEnd
  if cs.length > 1 ∧ cs.head? = some '0' then throw .malformed else return cs

/-- Takes the digits behind the point, if a point is there. -/
def fractionDigits (atEnd : Fault) : Reader (Option (List Char)) := do
  match (← get).head? with
  | some '.' => advance; return some (← someDigits atEnd)
  | _ => return none

/-- Takes the power of ten, if one is there. -/
def powerOfTen (atEnd : Fault) : Reader (Option Int) := do
  match (← get).head? with
  | some c =>
    if c = 'e' ∨ c = 'E' then
      advance
      let negative := (← get).head? = some '-'
      if negative ∨ (← get).head? = some '+' then advance
      let size : Int := Nat.ofDigitChars 10 (← someDigits atEnd) 0
      return some (if negative then -size else size)
    else return none
  | none => return none

/-- Gathers digits behind others for as long as the number of them all fits 64 bits. Gives that
number, and the digits that are left. -/
def gather (digits : Nat) : List Char → Nat × List Char
  | [] => (digits, [])
  | c :: cs =>
    let next := 10 * digits + (c.toNat - '0'.toNat)
    if next < 0x10000000000000000 then gather next cs else (digits, c :: cs)

/-- The decimal as which a number is read. Of the digits that do not fit, those before the point
count as zeros, and those behind it are left out. -/
def decimalOf (whole fraction : List Char) (power : Int) : Decimal :=
  let (digits, zeros) := gather 0 whole
  let (digits, leftOut) := gather digits fraction
  ⟨digits, power + zeros.length - (fraction.length - leftOut.length)⟩

/-- The number of a sign and digits: an integer if it is written as one and fits 64 bits, else a
finite number. There is no integer `-0`. -/
def numberOf (negative : Bool) (whole : List Char) (fraction : Option (List Char))
    (power : Option Int) : Option Json :=
  let size := Nat.ofDigitChars 10 whole 0
  let x := Binary64.ofScaled negative (decimalOf whole (fraction.getD []) (power.getD 0))
  if fraction.isNone ∧ power.isNone ∧ ¬ negative ∧ size < 0x10000000000000000 then
    some (.integer size)
  else if fraction.isNone ∧ power.isNone ∧ negative ∧ 0 < size ∧ size ≤ 0x8000000000000000 then
    some (.integer (-size))
  else (finite? x).map .real

/-- Takes a number. -/
def number : Reader Json := do
  let negative := (← get).head? = some '-'
  if negative then advance
  let whole ← wholeDigits .truncated
  let fraction ← fractionDigits .truncated
  let power ← powerOfTen .truncated
  match numberOf negative whole fraction power with
  | some v => return v
  | none => throw .malformed

/-- Passes over a number. -/
def skipNumber : Reader Unit := do
  if (← get).head? = some '-' then advance
  let _ ← wholeDigits .malformed
  let _ ← fractionDigits .malformed
  let _ ← powerOfTen .malformed

/-! ## Strings -/

/-- The value of a hexadecimal digit. -/
def hexValue? (c : Char) : Option Nat :=
  if '0' ≤ c ∧ c ≤ '9' then some (c.toNat - '0'.toNat)
  else if 'a' ≤ c ∧ c ≤ 'f' then some (c.toNat - 'a'.toNat + 10)
  else if 'A' ≤ c ∧ c ≤ 'F' then some (c.toNat - 'A'.toNat + 10)
  else none

/-- Takes four hexadecimal digits. The text counts as cut short when fewer than four bytes are
left. -/
def fourHexDigits : Reader Nat := do
  match ← get with
  | a :: b :: c :: d :: rest =>
    match hexValue? a, hexValue? b, hexValue? c, hexValue? d with
    | some a, some b, some c, some d =>
      set rest
      return 4096 * a + 256 * b + 16 * c + d
    | _, _, _, _ => throw .malformed
  | cs => if (String.ofList cs).utf8ByteSize < 4 then throw .truncated else throw .malformed

/-- The character of a simple escape. -/
def simpleEscape? (c : Char) : Option Char :=
  if c = '"' ∨ c = '\\' ∨ c = '/' then some c
  else if c = 'b' then some '\x08'
  else if c = 'f' then some '\x0c'
  else if c = 'n' then some '\n'
  else if c = 'r' then some '\r'
  else if c = 't' then some '\t'
  else none

/-- Takes an escape after its backslash. Surrogates come in pairs. -/
def escape : Reader Char := do
  let c ← next
  match simpleEscape? c with
  | some d => return d
  | none =>
    if c ≠ 'u' then throw .malformed
    let high ← fourHexDigits
    if 0xDC00 ≤ high ∧ high ≤ 0xDFFF then throw .malformed
    if high < 0xD800 ∨ 0xDBFF < high then return Char.ofNat high
    literally ['\\', 'u']
    let low ← fourHexDigits
    if low < 0xDC00 ∨ 0xDFFF < low then throw .malformed
    return Char.ofNat (0x10000 + (high - 0xD800) * 1024 + (low - 0xDC00))

/-- Passes over an escape after its backslash. -/
def skipEscape : Reader Unit := do
  let c ← next
  if (simpleEscape? c).isNone then
    if c ≠ 'u' then throw .malformed
    let _ ← fourHexDigits

/-- Takes the rest of a string after its opening quote. -/
def stringRest : Nat → Reader (List Char)
  | 0 => throw .truncated
  | fuel + 1 => do
    let c ← next
    if c = '"' then return []
    else if c = '\\' then
      let d ← escape
      return d :: (← stringRest fuel)
    else if c < ' ' then throw .malformed
    else return c :: (← stringRest fuel)

/-- Takes a string, quotes included. -/
def string : Reader String := do
  separator '"'
  return String.ofList (← stringRest ((← get).length + 1))

/-- Passes over the rest of a string after its opening quote. -/
def skipStringRest : Nat → Reader Unit
  | 0 => throw .truncated
  | fuel + 1 => do
    let c ← next
    if c = '"' then return
    else if c = '\\' then
      skipEscape
      skipStringRest fuel
    else if c < ' ' then throw .malformed
    else skipStringRest fuel

/-- Passes over a string, quotes included. -/
def skipString : Reader Unit := do
  separator '"'
  skipStringRest ((← get).length + 1)

/-! ## Arrays and objects -/

/-- Whether another item of an array follows. A comma stands before every item but the first, and
none before the bracket. -/
def hasItem (first : Bool) : Reader Bool := do
  match ← peek with
  | none => throw .truncated
  | some c =>
    if c = ']' then return false
    else if first then return true
    else if c ≠ ',' then throw .malformed
    else
      advance
      match ← peek with
      | none => throw .truncated
      | some d => if d = ']' then throw .malformed else return true

/-- Whether another member of an object follows. -/
def hasMember (first : Bool) : Reader Bool := do
  match ← peek with
  | none => throw .truncated
  | some c =>
    if c = '}' then return false
    else if first then
      if c = '"' then return true else throw .malformed
    else if c ≠ ',' then throw .malformed
    else
      advance
      match ← peek with
      | none => throw .truncated
      | some d => if d = '"' then return true else throw .malformed

/-- Takes the items of an array up to its closing bracket. -/
def items {σ : Type} (step : σ → Reader σ) : Nat → Bool → σ → Reader σ
  | 0, _, _ => throw .truncated
  | fuel + 1, first, s => do
    if ← hasItem first then items step fuel false (← step s) else return s

/-- Takes the members of an object up to its closing brace. `step` is given a key and takes the
colon and the value. -/
def members {σ : Type} (key : Reader String) (step : String → σ → Reader σ) :
    Nat → Bool → σ → Reader σ
  | 0, _, _ => throw .truncated
  | fuel + 1, first, s => do
    if ← hasMember first then
      let k ← key
      members key step fuel false (← step k s)
    else return s

/-- Takes an array, brackets included. -/
def array {σ : Type} (step : σ → Reader σ) (init : σ) : Reader σ := do
  separator '['
  let s ← items step ((← get).length + 1) true init
  separator ']'
  return s

/-- Takes an object, braces included. -/
def object {σ : Type} (step : String → σ → Reader σ) (init : σ) : Reader σ := do
  separator '{'
  let s ← members string step ((← get).length + 1) true init
  separator '}'
  return s

/-! ## Values -/

/-- Takes a value whose items and members are taken by `inner`; without it no array and no object
may be opened. Of members with one key the last counts. -/
def valueWith (inner : Option (Reader Json)) : Reader Json := do
  match ← peek with
  | none => throw .truncated
  | some 'n' => literally ['n', 'u', 'l', 'l']; return .null
  | some 't' => literally ['t', 'r', 'u', 'e']; return .bool true
  | some 'f' => literally ['f', 'a', 'l', 's', 'e']; return .bool false
  | some '"' => return .text (← string)
  | some '[' =>
    match inner with
    | none => throw .malformed
    | some item =>
      let reversed ← array (fun found => return (← item) :: found) []
      return .array reversed.reverse
  | some '{' =>
    match inner with
    | none => throw .malformed
    | some item =>
      let found ← object (fun key (found : Dictionary Json) => do
        separator ':'
        return found.insert key (← item)) []
      return .object found
  | some c => if c = '-' ∨ c.isDigit then number else throw .malformed

/-- Takes a value. At most `depth` arrays and objects may be open at once. -/
def value : (depth : Nat) → Reader Json
  | 0 => valueWith none
  | depth + 1 => valueWith (some (value depth))

/-- Passes over a value whose items and members are passed over by `inner`. -/
def skipWith (inner : Reader Unit) : Reader Unit := do
  match ← peek with
  | none => throw .truncated
  | some 'n' => literally ['n', 'u', 'l', 'l']
  | some 't' => literally ['t', 'r', 'u', 'e']
  | some 'f' => literally ['f', 'a', 'l', 's', 'e']
  | some '"' => skipString
  | some '[' => array (fun _ => inner) ()
  | some '{' =>
    separator '{'
    members (do skipString; return "") (fun _ _ => do separator ':'; inner)
      ((← get).length + 1) true ()
    separator '}'
  | some c => if c = '-' ∨ c.isDigit then skipNumber else throw .malformed

/-- Passes over a value that is nested no deeper than the fuel. -/
def skipValue : (fuel : Nat) → Reader Unit
  | 0 => throw .truncated
  | fuel + 1 => skipWith (skipValue fuel)

/-- Passes over a value of any nesting. -/
def skip : Reader Unit := do skipValue ((← get).length + 1)

end Reader

/-- How many arrays and objects may be open at once in a document. -/
def nestingLimit : Nat := 127

/-- Reads a whole text. Only blanks may follow what is read. -/
def readText {α : Type} (reader : Reader α) (text : String) : Except Fault α := do
  let (a, rest) ← reader text.toList
  if rest.all Reader.isBlank then .ok a else .error .malformed

/-- Reads a document. -/
def ofText (text : String) : Except Fault Json := readText (Reader.value nestingLimit) text

end Json

end TableMotion
