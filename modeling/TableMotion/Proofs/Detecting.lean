import TableMotion.Proofs.Differences
import TableMotion.Proofs.Identifying

/-!
# One changed byte is detected

A step of the hash can be undone, since its prime is odd: neither two states nor two bytes lead to
the same state. So streams that differ in one byte have different hashes (`state_write_ne`). A
switch that is flipped, or an ASCII character of a text that is exchanged for another, changes one
byte of the stream of a tree, wherever it stands in the tree (`Retouched.oneApart`).
-/

namespace TableMotion

/-! ## Steps that can be undone -/

namespace Fnv

/-- The inverse of the prime modulo `2 ^ 64` takes a multiplication back. -/
theorem mul_prime_inj {x y : UInt64} (h : x * 0x00000100000001b3 = y * 0x00000100000001b3) :
    x = y := by
  have inverse : (0x00000100000001b3 : UInt64) * 0xce965057aff6957b = 1 := by decide
  calc x = x * 0x00000100000001b3 * 0xce965057aff6957b := by
          rw [UInt64.mul_assoc, inverse, UInt64.mul_one]
    _ = y * 0x00000100000001b3 * 0xce965057aff6957b := by rw [h]
    _ = y := by rw [UInt64.mul_assoc, inverse, UInt64.mul_one]

theorem step_injective (byte : UInt8) : Function.Injective (step · byte) := by
  rintro ⟨m⟩ ⟨n⟩ same
  exact congrArg mk ((UInt64.xor_left_inj _).1 (mul_prime_inj (Fnv.mk.inj same)))

theorem step_byte_injective (h : Fnv) : Function.Injective (step h) := by
  intro a b same
  exact UInt8.toUInt64_inj.1 ((UInt64.xor_right_inj _).1 (mul_prime_inj (Fnv.mk.inj same)))

/-- Bytes that are taken in after a difference keep it. -/
theorem write_injective (bytes : List UInt8) : Function.Injective (write · bytes) := by
  induction bytes with
  | nil => exact fun _ _ same => same
  | cons byte rest ih => exact fun _ _ same => step_injective byte (ih same)

end Fnv

/-! ## Streams that differ in one byte -/

/-- Two streams have different bytes in one place and are alike before and behind it. -/
def OneApart (xs ys : List UInt8) : Prop :=
  ∃ front a b back, a ≠ b ∧ xs = front ++ a :: back ∧ ys = front ++ b :: back

theorem OneApart.append_left {xs ys : List UInt8} (h : OneApart xs ys) (front : List UInt8) :
    OneApart (front ++ xs) (front ++ ys) := by
  obtain ⟨before, a, b, back, different, rfl, rfl⟩ := h
  exact ⟨front ++ before, a, b, back, different, (List.append_assoc ..).symm,
    (List.append_assoc ..).symm⟩

theorem OneApart.cons {xs ys : List UInt8} (h : OneApart xs ys) (byte : UInt8) :
    OneApart (byte :: xs) (byte :: ys) := h.append_left [byte]

theorem OneApart.append_right {xs ys : List UInt8} (h : OneApart xs ys) (back : List UInt8) :
    OneApart (xs ++ back) (ys ++ back) := by
  obtain ⟨front, a, b, behind, different, rfl, rfl⟩ := h
  exact ⟨front, a, b, behind ++ back, different, by simp, by simp⟩

theorem OneApart.length_eq {xs ys : List UInt8} (h : OneApart xs ys) : xs.length = ys.length := by
  obtain ⟨front, a, b, back, -, rfl, rfl⟩ := h
  simp

theorem oneApart_cons {a b : UInt8} (different : a ≠ b) (back : List UInt8) :
    OneApart (a :: back) (b :: back) := ⟨[], a, b, back, different, rfl, rfl⟩

/-- Streams of one length that differ at one position are one byte apart. -/
theorem oneApart_of_existsUnique {xs ys : List UInt8} (length : xs.length = ys.length)
    (once : ∃! i : Nat, xs[i]? ≠ ys[i]?) : OneApart xs ys := by
  obtain ⟨i, different, only⟩ := once
  have alike : ∀ j, j ≠ i → xs[j]? = ys[j]? := by
    intro j other
    by_contra apart
    exact other (only j apart)
  have inside : i < xs.length := by
    by_contra outside
    rw [List.getElem?_eq_none (by omega), List.getElem?_eq_none (by omega)] at different
    exact different rfl
  have insideOther : i < ys.length := length ▸ inside
  rw [List.getElem?_eq_getElem inside, List.getElem?_eq_getElem insideOther] at different
  have front : xs.take i = ys.take i := by
    apply List.ext_getElem?
    intro j
    rw [List.getElem?_take, List.getElem?_take]
    split
    · exact alike j (by omega)
    · rfl
  have back : xs.drop (i + 1) = ys.drop (i + 1) := by
    apply List.ext_getElem?
    intro j
    rw [List.getElem?_drop, List.getElem?_drop]
    exact alike _ (by omega)
  refine ⟨xs.take i, xs[i], ys[i], xs.drop (i + 1), fun same => different (by rw [same]), ?_, ?_⟩
  · rw [List.getElem_cons_drop, List.take_append_drop]
  · rw [front, back, List.getElem_cons_drop, List.take_append_drop]

/-- Streams that are one byte apart have different hashes. -/
theorem state_write_ne {xs ys : List UInt8} (apart : OneApart xs ys) (h : Fnv) :
    (h.write xs).state ≠ (h.write ys).state := by
  obtain ⟨front, a, b, back, different, rfl, rfl⟩ := apart
  intro same
  have hashes : h.write (front ++ a :: back) = h.write (front ++ b :: back) :=
    congrArg Fnv.mk same
  rw [Fnv.write_append, Fnv.write_append] at hashes
  exact different (Fnv.step_byte_injective _ (Fnv.write_injective back hashes))

/-! ## Trees that differ in one byte -/

/-- One switch of a tree is flipped, or one ASCII character of one of its texts exchanged for
another. -/
inductive Retouched : Tree → Tree → Prop
  | flip (b : Bool) : Retouched (.bool b) (.bool !b)
  | exchange (front back : List Char) {c d : Char} (ascii : c.toNat < 128) (plain : d.toNat < 128)
      (different : c ≠ d) :
      Retouched (.text (String.ofList (front ++ c :: back)))
        (.text (String.ofList (front ++ d :: back)))
  | item (front back : List Tree) {t u : Tree} (inner : Retouched t u) :
      Retouched (.list (front ++ t :: back)) (.list (front ++ u :: back))
  | field (front back : List (String × Tree)) (key : String) {t u : Tree}
      (inner : Retouched t u) :
      Retouched (.map (front ++ (key, t) :: back)) (.map (front ++ (key, u) :: back))

namespace Fingerprint

theorem flatten_itemsPieces_append (front back : List Tree) :
    (itemsPieces (front ++ back)).flatten =
      (itemsPieces front).flatten ++ (itemsPieces back).flatten := by
  induction front with
  | nil => rfl
  | cons t rest ih =>
    rw [List.cons_append, flatten_itemsPieces_cons, flatten_itemsPieces_cons, ih, List.append_assoc]

theorem flatten_fieldsPieces_append (front back : List (String × Tree)) :
    (fieldsPieces (front ++ back)).flatten =
      (fieldsPieces front).flatten ++ (fieldsPieces back).flatten := by
  induction front with
  | nil => rfl
  | cons e rest ih =>
    obtain ⟨key, t⟩ := e
    rw [List.cons_append, flatten_fieldsPieces_cons, flatten_fieldsPieces_cons, ih]
    simp only [List.append_assoc]

theorem utf8EncodeChar_of_ascii {c : Char} (ascii : c.toNat < 128) :
    String.utf8EncodeChar c = [c.val.toUInt8] := by
  apply String.utf8EncodeChar_eq_singleton
  rw [Char.utf8Size, if_pos]
  rw [UInt32.le_iff_toNat_le]
  exact Nat.le_of_lt_succ ascii

theorem byte_ne_of_ascii {c d : Char} (ascii : c.toNat < 128) (plain : d.toNat < 128)
    (different : c ≠ d) : c.val.toUInt8 ≠ d.val.toUInt8 := by
  intro same
  have residues := congrArg UInt8.toNat same
  rw [UInt32.toNat_toUInt8, UInt32.toNat_toUInt8] at residues
  change c.toNat % 2 ^ 8 = d.toNat % 2 ^ 8 at residues
  rw [Nat.mod_eq_of_lt (by omega), Nat.mod_eq_of_lt (by omega)] at residues
  exact different (Char.toNat_inj.1 residues)

theorem textBytes_append_cons (front back : List Char) {c : Char} (ascii : c.toNat < 128) :
    textBytes (String.ofList (front ++ c :: back)) =
      front.flatMap String.utf8EncodeChar ++
        (c.val.toUInt8 :: back.flatMap String.utf8EncodeChar) := by
  rw [textBytes, String.toList_ofList, List.flatMap_append, List.flatMap_cons,
    utf8EncodeChar_of_ascii ascii, List.singleton_append]

end Fingerprint

open Fingerprint in
/-- Only one byte of the stream changes. -/
theorem Retouched.oneApart {t u : Tree} (h : Retouched t u) : OneApart (stream t) (stream u) := by
  induction h with
  | flip b =>
    cases b with
    | false => exact (oneApart_cons (by decide) []).cons 1
    | true => exact (oneApart_cons (by decide) []).cons 1
  | exchange front back ascii plain different =>
    -- both characters are written with one byte, so the sizes in front are the same
    have bytes := textBytes_append_cons front back ascii
    have others := textBytes_append_cons front back plain
    have apart := (oneApart_cons (byte_ne_of_ascii ascii plain different)
      (back.flatMap String.utf8EncodeChar)).append_left (front.flatMap String.utf8EncodeChar)
    have sizes := apart.length_eq
    rw [← bytes, ← others] at apart sizes
    rw [stream_text, stream_text, sizedText, sizedText, sizes]
    simp only [List.flatten_cons, List.flatten_nil, List.append_nil]
    exact (apart.append_left _).cons 3
  | @item front back t u inner ih =>
    rw [stream_list, stream_list, flatten_itemsPieces_append, flatten_itemsPieces_append,
      flatten_itemsPieces_cons, flatten_itemsPieces_cons, List.length_append, List.length_append,
      List.length_cons, List.length_cons]
    exact (((ih.append_right _).append_left _).append_left _).cons 4
  | @field front back key t u inner ih =>
    rw [stream_map, stream_map, flatten_fieldsPieces_append, flatten_fieldsPieces_append,
      flatten_fieldsPieces_cons, flatten_fieldsPieces_cons, List.length_append, List.length_append,
      List.length_cons, List.length_cons]
    exact ((((ih.append_right _).append_left _).append_left _).append_left _).cons 5

/-! ## Writes that change one byte -/

/-- A value that is found is put in the same place among the others. -/
theorem Dictionary.exists_insert_eq {α : Type} {d : Dictionary α} (sorted : d.Sorted) {key : String}
    {value : α} (found : d.find? key = some value) :
    ∃ front back, d = front ++ (key, value) :: back ∧
      ∀ other, d.insert key other = front ++ (key, other) :: back := by
  induction d with
  | nil => cases found
  | cons e rest ih =>
    obtain ⟨k, v⟩ := e
    obtain ⟨above, ordered⟩ := sorted_cons.1 sorted
    rw [find?_cons] at found
    by_cases here : k = key
    · subst here
      obtain rfl : v = value := by simpa using found
      exact ⟨[], rest, rfl, fun other => by simp [insert]⟩
    · rw [if_neg here] at found
      obtain ⟨front, back, rfl, put⟩ := ih ordered found
      have behind := above (key, value) (by simp)
      refine ⟨(k, v) :: front, back, rfl, fun other => ?_⟩
      rw [insert, if_neg (by grind), if_neg here, put, List.cons_append]

namespace Tree

theorem retouched_replaceChild {t c d : Tree} {key : String} (h : t.WellFormed)
    (found : t.child? key = some c) (inner : Retouched c d) :
    Retouched t (t.replaceChild key d) := by
  cases t with
  | map fields =>
    obtain ⟨front, back, rfl, put⟩ := Dictionary.exists_insert_eq (wellFormed_map.1 h).1 found
    rw [replaceChild, put]
    exact .field front back key inner
  | list items =>
    obtain ⟨i, named, atIndex⟩ := Option.bind_eq_some_iff.1 found
    obtain ⟨inside, rfl⟩ := List.getElem?_eq_some_iff.1 atIndex
    have around : ∃ front back, items = front ++ items[i] :: back ∧ front.length = i ∧
        items.set i d = front ++ d :: back := List.exists_of_set inside
    obtain ⟨front, back, split, -, put⟩ := around
    simp only [replaceChild, named, put]
    have touched := Retouched.item front back inner
    rwa [← split] at touched
  | null | bool | amount | text => cases found

/-- A write that retouches a node of a tree retouches the tree. -/
theorem retouched_write {t u c d : Tree} {p : Path} (h : t.WellFormed)
    (here : t.get? p = some c) (inner : Retouched c d) (made : write d p t = .ok u) :
    Retouched t u := by
  induction p generalizing t u with
  | nil =>
    cases made
    cases here
    exact inner
  | cons key p ih =>
    rw [get?_cons] at here
    obtain ⟨child, found, below⟩ := Option.bind_eq_some_iff.1 here
    cases p with
    | nil =>
      cases below
      have put := setChild_of_child? found d
      cases put.symm.trans made
      exact retouched_replaceChild h found inner
    | cons next p =>
      obtain ⟨c', d', found', inner', rfl⟩ := write_cons_ok.1 made
      cases found.symm.trans found'
      exact retouched_replaceChild h found
        (ih (wellFormed_hereditary.child h found) below inner')

end Tree

/-- Streams of one length that differ at exactly one position have different hashes. So the
fingerprint of a tree changes when one of its switches is flipped or one ASCII character of one of
its texts exchanged for another, by a write at any path too. -/
theorem ofTree_detects :
    (∀ (h : Fnv) (xs ys : List UInt8), xs.length = ys.length → (∃! i : Nat, xs[i]? ≠ ys[i]?) →
      (h.write xs).state ≠ (h.write ys).state) ∧
    (∀ t u : Tree, Retouched t u → Fingerprint.ofTree t ≠ Fingerprint.ofTree u) ∧
    ∀ (t u c d : Tree) (p : Path), t.WellFormed → t.get? p = some c → Retouched c d →
      t.set p d = .ok u → Fingerprint.ofTree t ≠ Fingerprint.ofTree u := by
  have trees : ∀ t u : Tree, Retouched t u → Fingerprint.ofTree t ≠ Fingerprint.ofTree u := by
    intro t u touched
    rw [Fingerprint.ofTree, Fingerprint.ofTree, Fnv.writeAll_eq, Fnv.writeAll_eq]
    exact state_write_ne touched.oneApart Fnv.empty
  refine ⟨fun h xs ys length once => ?_, trees, fun t u c d p wellFormed here inner made => ?_⟩
  · exact state_write_ne (oneApart_of_existsUnique length once) h
  · exact trees t u (Tree.retouched_write wellFormed here inner (Tree.put_some_ok.1 made))

/-- A changed byte, a fold in the second seat, and a letter of its name written at its path. -/
theorem ofTree_detects_second_seat :
    let table (name : String) (folded : Bool) : Tree :=
      .map [("seats", .list [.null, .map [("folded", .bool folded), ("name", .text name)]])]
    (Fnv.empty.write [1, 2, 3]).state ≠ (Fnv.empty.write [1, 7, 3]).state ∧
      Fingerprint.ofTree (table "ada" false) ≠ Fingerprint.ofTree (table "ada" true) ∧
      Fingerprint.ofTree (table "ada" false) ≠ Fingerprint.ofTree (table "ana" false) := by
  intro table
  have once : ∃! i : Nat, ([1, 2, 3] : List UInt8)[i]? ≠ ([1, 7, 3] : List UInt8)[i]? := by
    refine ⟨1, by decide, fun i different => ?_⟩
    match i with
    | 0 | 2 | _ + 3 => exact absurd rfl different
    | 1 => rfl
  have folded : Retouched (table "ada" false) (table "ada" true) :=
    .field [] [] "seats" <| .item [.null] [] <|
      .field [] [("name", .text "ada")] "folded" (.flip false)
  have letter : Retouched (.text "ada") (.text "ana") :=
    .exchange ['a'] ['a'] (by decide) (by decide) (by decide)
  exact ⟨ofTree_detects.1 Fnv.empty _ _ rfl once, ofTree_detects.2.1 _ _ folded,
    ofTree_detects.2.2 (table "ada" false) (table "ana" false) _ _ ["seats", "1", "name"]
      (by decide +kernel) (by decide +kernel) letter (by decide +kernel)⟩

end TableMotion
