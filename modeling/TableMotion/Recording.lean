import TableMotion.Message

/-!
# Recordings

A recording is a list of messages with sequence numbers. Entries are replayed by number and, where
numbers are equal, in the order in which they stand.
-/

namespace TableMotion

/-- A message and its sequence number. -/
structure Entry where
  seq : Nat
  message : Message
deriving DecidableEq

/-- Messages captured for replay. -/
structure Recording where
  entries : List Entry
deriving DecidableEq

namespace Recording

/-- The recording of nothing. -/
def empty : Recording := ⟨[]⟩

/-- The number after that of the last entry. Numbers are below `2 ^ 64`. -/
def nextSeq? (r : Recording) : Option Nat :=
  match r.entries.getLast? with
  | none => some 0
  | some last => if last.seq + 1 < 0x10000000000000000 then some (last.seq + 1) else none

/-- What is said when the numbers are used up. -/
def exhaustedMessage : String := "attempt to add with overflow"

/-- Appends a message under the next number, and gives that number. -/
def append? (r : Recording) (m : Message) : Option (Nat × Recording) :=
  r.nextSeq?.map fun seq => (seq, ⟨r.entries ++ [⟨seq, m⟩]⟩)

/-- The greatest number of an entry. -/
def greatestSeq? (r : Recording) : Option Nat := (r.entries.map (·.seq)).max?

/-- The entries in the order of replay. -/
def inOrder (r : Recording) : List Entry := r.entries.mergeSort fun a b => a.seq ≤ b.seq

end Recording

end TableMotion
