import TableMotion.Tree

/-!
# Fingerprints of trees

A fingerprint is the 64-bit FNV-1a hash of a byte stream that spells out a tree and is taken in
piece by piece. Each node starts with a byte for its kind, and what has no fixed size with its size
in eight bytes, so that no stream begins another. An absent tree has a stream of its own.
-/

namespace TableMotion

/-- FNV-1a over 64 bits. -/
structure Fnv where
  state : UInt64
deriving DecidableEq

namespace Fnv

/-- The hash of no bytes. -/
def empty : Fnv := ⟨0xcbf29ce484222325⟩

/-- Takes in one byte. -/
def step (h : Fnv) (byte : UInt8) : Fnv := ⟨(h.state ^^^ byte.toUInt64) * 0x00000100000001b3⟩

/-- Takes in bytes in their order. -/
def write (h : Fnv) (bytes : List UInt8) : Fnv := bytes.foldl step h

/-- Takes in pieces of bytes, one after another. -/
def writeAll (h : Fnv) (pieces : List (List UInt8)) : Fnv := pieces.foldl write h

theorem write_append (h : Fnv) (front back : List UInt8) :
    h.write (front ++ back) = (h.write front).write back := List.foldl_append

/-- Where bytes are cut into pieces does not count. -/
theorem writeAll_eq (h : Fnv) (pieces : List (List UInt8)) :
    h.writeAll pieces = h.write pieces.flatten := by
  induction pieces generalizing h with
  | nil => rfl
  | cons piece rest ih =>
    rw [List.flatten_cons, write_append, ← ih]
    rfl

end Fnv

namespace Fingerprint

/-- A number below `2 ^ 64` in eight bytes, the lowest first. -/
def eightBytes (n : Nat) : List UInt8 :=
  (List.range 8).map fun i => UInt8.ofNat ((n >>> (8 * i)) % 256)

/-- An integer of 64 bits in two's complement. -/
def signedBytes (n : Int) : List UInt8 := eightBytes (n % 0x10000000000000000).toNat

/-- The bytes of a text. -/
def textBytes (s : String) : List UInt8 := s.toList.flatMap String.utf8EncodeChar

/-- A text with its size in front. -/
def sizedText (s : String) : List (List UInt8) := [eightBytes (textBytes s).length, textBytes s]

mutual

/-- The pieces in which a tree is taken in, in their order. -/
def pieces : Tree → List (List UInt8)
  | .null => [[0]]
  | .bool b => [[1], [if b then 1 else 0]]
  | .amount a => [[2], signedBytes a.raw]
  | .text s => [3] :: sizedText s
  | .list items => [4] :: eightBytes items.length :: itemsPieces items
  | .map fields => [5] :: eightBytes fields.length :: fieldsPieces fields

/-- The pieces of the items of a list. -/
def itemsPieces : List Tree → List (List UInt8)
  | [] => []
  | t :: rest => pieces t ++ itemsPieces rest

/-- The pieces of the fields of a map, each behind its key. -/
def fieldsPieces : List (String × Tree) → List (List UInt8)
  | [] => []
  | (key, t) :: rest => sizedText key ++ pieces t ++ fieldsPieces rest

end

/-- The pieces of a tree that may be absent. -/
def optionalPieces : Option Tree → List (List UInt8)
  | none => [[0xff]]
  | some t => pieces t

/-- The stream of a tree. -/
def stream (t : Tree) : List UInt8 := (pieces t).flatten

/-- The stream of a tree that may be absent. -/
def optionalStream (t : Option Tree) : List UInt8 := (optionalPieces t).flatten

/-- The fingerprint of a tree. -/
def ofTree (t : Tree) : UInt64 := (Fnv.empty.writeAll (pieces t)).state

/-- The fingerprint of a tree that may be absent. -/
def ofOptional (t : Option Tree) : UInt64 := (Fnv.empty.writeAll (optionalPieces t)).state

end Fingerprint

end TableMotion
