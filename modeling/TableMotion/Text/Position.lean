/-!
# Positions at the end of a message

A message may end in a position, ` at line L column C`. What is said of a value is told apart from
the place where it stands: `withoutPosition` gives a message without such an end. A position that
was written at the end of a message is taken off again (`withoutPosition_append`).
-/

namespace TableMotion

namespace Text

/-- Takes a number below `2 ^ 64` and the word before it off the end of a text. The word and the
text are given backwards. -/
def dropNumber? (word cs : List Char) : Option (List Char) :=
  let digits := cs.takeWhile Char.isDigit
  let rest := cs.dropWhile Char.isDigit
  if digits ≠ [] ∧ Nat.ofDigitChars 10 digits.reverse 0 < 0x10000000000000000 ∧
      word.isPrefixOf rest then
    some (rest.drop word.length)
  else none

/-- A message without the position that it ends in, if it ends in one. -/
def withoutPosition (message : String) : String :=
  match (dropNumber? " column ".toList.reverse message.toList.reverse).bind
      (dropNumber? " at line ".toList.reverse) with
  | some cs => String.ofList cs.reverse
  | none => message

/-- A number and the word before it are taken off the end of a text that they were written on. -/
theorem dropNumber?_append {n : Nat} (small : n < 0x10000000000000000) {word : List Char}
    (apart : ∀ c ∈ word.head?, ¬ c.isDigit) (nonempty : word ≠ []) (cs : List Char) :
    dropNumber? word ((Nat.toDigits 10 n).reverse ++ (word ++ cs)) = some cs := by
  have digits : ∀ c ∈ (Nat.toDigits 10 n).reverse, c.isDigit = true := fun c h =>
    Nat.isDigit_of_mem_toDigits (by decide) (by decide) (List.mem_reverse.1 h)
  obtain ⟨c, rest, rfl⟩ := List.exists_cons_of_ne_nil nonempty
  have stop : c.isDigit = false := by simpa using apart
  have taken : ((Nat.toDigits 10 n).reverse ++ (c :: rest ++ cs)).takeWhile Char.isDigit =
      (Nat.toDigits 10 n).reverse := by
    rw [List.takeWhile_append_of_pos digits]
    simp [stop]
  have left : ((Nat.toDigits 10 n).reverse ++ (c :: rest ++ cs)).dropWhile Char.isDigit =
      c :: rest ++ cs := by
    rw [List.dropWhile_append_of_pos digits]
    simp [stop]
  rw [dropNumber?, taken, left]
  simp [Nat.toDigits_ne_nil, Nat.ofDigitChars_toDigits, small]

/-- A position that was written at the end of a message is taken off again. -/
theorem withoutPosition_append (message : String) {line column : Nat}
    (hl : line < 0x10000000000000000) (hc : column < 0x10000000000000000) :
    withoutPosition (message ++ " at line " ++ Nat.repr line ++ " column " ++ Nat.repr column) =
      message := by
  have spelled : (message ++ " at line " ++ Nat.repr line ++ " column " ++
      Nat.repr column).toList.reverse =
      (Nat.toDigits 10 column).reverse ++ (" column ".toList.reverse ++
        ((Nat.toDigits 10 line).reverse ++ (" at line ".toList.reverse ++
          message.toList.reverse))) := by
    simp [Nat.repr]
  rw [withoutPosition, spelled, dropNumber?_append hc (by simp) (by simp), Option.bind_some,
    dropNumber?_append hl (by simp) (by simp)]
  simp

end Text

end TableMotion
