import Mathlib.Algebra.Group.Nat.Defs
import TableMotion.Fingerprint
import TableMotion.Proofs.Shapes

/-!
# Streams tell trees apart

The stream of a tree says at every byte whether the tree has ended: a node begins with its kind, and
what has no fixed size with its size. So a tree can be told from what stands behind it
(`stream_append_inj`), no stream begins another, and trees with one stream are one tree. The
fingerprint knows no more of a tree than its stream (`optionalStream_identifies`).
-/

namespace TableMotion

/-! ## Codes that say where they end -/

/-- Of the things with `P`, each can be told from what stands behind its code. -/
def EndsItself {α : Type} (P : α → Prop) (code : α → List UInt8) : Prop :=
  ∀ ⦃a b : α⦄, P a → P b → ∀ ⦃x y : List UInt8⦄, code a ++ x = code b ++ y → a = b ∧ x = y

/-- Codes of one length end themselves if they are different. -/
theorem endsItself_of_length {α : Type} {P : α → Prop} {code : α → List UInt8} {n : Nat}
    (length : ∀ a, (code a).length = n) (inj : ∀ {a b}, P a → P b → code a = code b → a = b) :
    EndsItself P code := by
  intro a b ha hb x y same
  obtain ⟨codes, behind⟩ := List.append_inj same (by rw [length, length])
  exact ⟨inj ha hb codes, behind⟩

namespace Fingerprint

/-! ## Numbers and texts -/

/-- The digits of two numbers tell them apart up to their highest place. -/
theorem mod_pow_eq_of_digits {m n b : Nat} :
    ∀ k, (∀ i < k, m / b ^ i % b = n / b ^ i % b) → m % b ^ k = n % b ^ k
  | 0, _ => by rw [Nat.pow_zero, Nat.mod_one, Nat.mod_one]
  | k + 1, digits => by
    have lower := mod_pow_eq_of_digits k fun i hi => digits i (Nat.lt_succ_of_lt hi)
    rw [Nat.mod_pow_succ, Nat.mod_pow_succ, lower, digits k (Nat.lt_succ_self k)]

theorem eightBytes_inj {m n : Nat} (hm : m < 0x10000000000000000) (hn : n < 0x10000000000000000)
    (h : eightBytes m = eightBytes n) : m = n := by
  have digits : ∀ i < 8, m / 256 ^ i % 256 = n / 256 ^ i % 256 := by
    intro i hi
    have bytes := congrArg UInt8.toNat (List.map_inj_left.1 h i (List.mem_range.2 hi))
    simpa [UInt8.toNat_ofNat', Nat.shiftRight_eq_div_pow, Nat.pow_mul] using bytes
  have low := mod_pow_eq_of_digits 8 digits
  have size : 256 ^ 8 = 0x10000000000000000 := by decide
  rwa [size, Nat.mod_eq_of_lt hm, Nat.mod_eq_of_lt hn] at low

@[simp] theorem length_eightBytes (n : Nat) : (eightBytes n).length = 8 := by
  simp [eightBytes]

theorem eightBytes_endsItself : EndsItself (· < 0x10000000000000000) eightBytes :=
  endsItself_of_length length_eightBytes eightBytes_inj

theorem signedBytes_endsItself :
    EndsItself (fun _ => True) fun a : Amount => signedBytes a.raw := by
  refine endsItself_of_length (fun a => length_eightBytes _) ?_
  rintro ⟨m, hm⟩ ⟨n, hn⟩ - - same
  have residues : (m % 0x10000000000000000).toNat = (n % 0x10000000000000000).toNat :=
    eightBytes_inj (by omega) (by omega) same
  obtain rfl : m = n := by omega
  rfl

theorem textBytes_injective : Function.Injective textBytes := by
  intro s t same
  have bytes : s.toList.utf8Encode = t.toList.utf8Encode := congrArg List.toByteArray same
  rw [String.utf8Encode_toList, String.utf8Encode_toList] at bytes
  exact String.toByteArray_inj.1 bytes

/-- Whether the size of a text fits eight bytes. -/
def isSizedText (s : String) : Bool := (textBytes s).length < 0x10000000000000000

theorem sizedText_endsItself :
    EndsItself (isSizedText · = true) fun s => (sizedText s).flatten := by
  intro s t hs ht x y same
  simp only [sizedText, List.flatten_cons, List.flatten_nil, List.append_nil,
    List.append_assoc] at same
  obtain ⟨sizes, rest⟩ :=
    eightBytes_endsItself (of_decide_eq_true hs) (of_decide_eq_true ht) same
  obtain ⟨texts, behind⟩ := List.append_inj rest sizes
  exact ⟨textBytes_injective texts, behind⟩

/-! ## Trees -/

/-- Whether the sizes that a node names fit eight bytes. -/
def isSized : Tree → Bool
  | .text s => isSizedText s
  | .list items => items.length < 0x10000000000000000
  | .map fields => fields.length < 0x10000000000000000 && fields.all (isSizedText ·.1)
  | .null | .bool _ | .amount _ => true

/-- The lists, maps, texts and keys of a tree are shorter than `2 ^ 64`. -/
def Sized (t : Tree) : Prop := t.all isSized = true

instance (t : Tree) : Decidable (Sized t) := inferInstanceAs (Decidable (_ = true))

theorem sized_list {items : List Tree} : Sized (.list items) ↔
    items.length < 0x10000000000000000 ∧ ∀ t ∈ items, Sized t := by
  rw [Sized, Tree.all_list, isSized, decide_eq_true_eq]
  rfl

theorem sized_map {fields : List (String × Tree)} : Sized (.map fields) ↔
    fields.length < 0x10000000000000000 ∧ ∀ e ∈ fields, isSizedText e.1 = true ∧ Sized e.2 := by
  rw [Sized, Tree.all_map, isSized, Bool.and_eq_true, decide_eq_true_eq, List.all_eq_true,
    and_assoc]
  exact and_congr_right fun _ => ⟨fun h e he => ⟨h.1 e he, h.2 e he⟩,
    fun h => ⟨fun e he => (h e he).1, fun e he => (h e he).2⟩⟩

theorem stream_list (items : List Tree) :
    stream (.list items) = 4 :: (eightBytes items.length ++ (itemsPieces items).flatten) := by
  simp [stream, pieces]

theorem stream_map (fields : List (String × Tree)) :
    stream (.map fields) = 5 :: (eightBytes fields.length ++ (fieldsPieces fields).flatten) := by
  simp [stream, pieces]

theorem stream_amount (a : Amount) : stream (.amount a) = 2 :: signedBytes a.raw := by
  simp [stream, pieces]

theorem stream_text (s : String) : stream (.text s) = 3 :: (sizedText s).flatten := by
  simp [stream, pieces]

theorem stream_bool (b : Bool) : stream (.bool b) = [1, if b then 1 else 0] := rfl

theorem flatten_itemsPieces_cons (t : Tree) (rest : List Tree) :
    (itemsPieces (t :: rest)).flatten = stream t ++ (itemsPieces rest).flatten := by
  simp [itemsPieces, stream]

theorem flatten_fieldsPieces_cons (key : String) (t : Tree) (rest : List (String × Tree)) :
    (fieldsPieces ((key, t) :: rest)).flatten =
      (sizedText key).flatten ++ (stream t ++ (fieldsPieces rest).flatten) := by
  simp [fieldsPieces, stream]

mutual

/-- A tree can be told from what stands behind its stream. -/
theorem stream_append_inj : (t u : Tree) → Sized t → Sized u → ∀ {x y : List UInt8},
    stream t ++ x = stream u ++ y → t = u ∧ x = y
  | .null, u, _, _, x, y, same => by
    cases u with
    | null => exact ⟨rfl, (List.cons.inj same).2⟩
    | bool | amount | text | list | map => simp [stream, pieces] at same
  | .bool b, u, _, _, x, y, same => by
    cases u with
    | bool c =>
      simp only [stream_bool, List.cons_append, List.nil_append, List.cons.injEq, true_and] at same
      refine ⟨?_, same.2⟩
      cases b <;> cases c <;> simp_all
    | null | amount | text | list | map => simp [stream, pieces] at same
  | .amount a, u, _, _, x, y, same => by
    cases u with
    | amount b =>
      rw [stream_amount, stream_amount, List.cons_append, List.cons_append] at same
      obtain ⟨rfl, behind⟩ := signedBytes_endsItself trivial trivial (List.cons.inj same).2
      exact ⟨rfl, behind⟩
    | null | bool | text | list | map => simp [stream, pieces] at same
  | .text s, u, hs, hu, x, y, same => by
    cases u with
    | text r =>
      rw [stream_text, stream_text, List.cons_append, List.cons_append] at same
      obtain ⟨rfl, behind⟩ := sizedText_endsItself hs hu (List.cons.inj same).2
      exact ⟨rfl, behind⟩
    | null | bool | amount | list | map => simp [stream, pieces] at same
  | .list items, u, hs, hu, x, y, same => by
    cases u with
    | list others =>
      obtain ⟨short, each⟩ := sized_list.1 hs
      obtain ⟨shortOthers, eachOther⟩ := sized_list.1 hu
      rw [stream_list, stream_list, List.cons_append, List.cons_append, List.append_assoc,
        List.append_assoc] at same
      obtain ⟨lengths, rest⟩ := eightBytes_endsItself short shortOthers (List.cons.inj same).2
      obtain ⟨rfl, behind⟩ := items_append_inj items others lengths each eachOther rest
      exact ⟨rfl, behind⟩
    | null | bool | amount | text | map => simp [stream, pieces] at same
  | .map fields, u, hs, hu, x, y, same => by
    cases u with
    | map others =>
      obtain ⟨short, each⟩ := sized_map.1 hs
      obtain ⟨shortOthers, eachOther⟩ := sized_map.1 hu
      rw [stream_map, stream_map, List.cons_append, List.cons_append, List.append_assoc,
        List.append_assoc] at same
      obtain ⟨lengths, rest⟩ := eightBytes_endsItself short shortOthers (List.cons.inj same).2
      obtain ⟨rfl, behind⟩ := fields_append_inj fields others lengths each eachOther rest
      exact ⟨rfl, behind⟩
    | null | bool | amount | text | list => simp [stream, pieces] at same

theorem items_append_inj : (items others : List Tree) → items.length = others.length →
    (∀ t ∈ items, Sized t) → (∀ t ∈ others, Sized t) → ∀ {x y : List UInt8},
    (itemsPieces items).flatten ++ x = (itemsPieces others).flatten ++ y →
    items = others ∧ x = y
  | [], [], _, _, _, _, _, same => ⟨rfl, same⟩
  | [], _ :: _, lengths, _, _, _, _, _ => by cases lengths
  | _ :: _, [], lengths, _, _, _, _, _ => by cases lengths
  | t :: rest, u :: more, lengths, each, eachOther, x, y, same => by
    rw [flatten_itemsPieces_cons, flatten_itemsPieces_cons, List.append_assoc,
      List.append_assoc] at same
    obtain ⟨rfl, behind⟩ := stream_append_inj t u (each t List.mem_cons_self)
      (eachOther u List.mem_cons_self) same
    obtain ⟨rfl, last⟩ := items_append_inj rest more (Nat.succ.inj lengths)
      (fun s hs => each s (List.mem_cons_of_mem t hs))
      (fun s hs => eachOther s (List.mem_cons_of_mem t hs)) behind
    exact ⟨rfl, last⟩

theorem fields_append_inj : (fields others : List (String × Tree)) →
    fields.length = others.length →
    (∀ e ∈ fields, isSizedText e.1 = true ∧ Sized e.2) →
    (∀ e ∈ others, isSizedText e.1 = true ∧ Sized e.2) → ∀ {x y : List UInt8},
    (fieldsPieces fields).flatten ++ x = (fieldsPieces others).flatten ++ y →
    fields = others ∧ x = y
  | [], [], _, _, _, _, _, same => ⟨rfl, same⟩
  | [], _ :: _, lengths, _, _, _, _, _ => by cases lengths
  | _ :: _, [], lengths, _, _, _, _, _ => by cases lengths
  | (key, t) :: rest, (other, u) :: more, lengths, each, eachOther, x, y, same => by
    rw [flatten_fieldsPieces_cons, flatten_fieldsPieces_cons] at same
    simp only [List.append_assoc] at same
    obtain ⟨sizedKey, sized⟩ := each _ List.mem_cons_self
    obtain ⟨sizedOther, sizedU⟩ := eachOther _ List.mem_cons_self
    obtain ⟨rfl, value⟩ := sizedText_endsItself sizedKey sizedOther same
    obtain ⟨rfl, behind⟩ := stream_append_inj t u sized sizedU value
    obtain ⟨rfl, last⟩ := fields_append_inj rest more (Nat.succ.inj lengths)
      (fun e he => each e (List.mem_cons_of_mem _ he))
      (fun e he => eachOther e (List.mem_cons_of_mem _ he)) behind
    exact ⟨rfl, last⟩

end

/-! ## Trees that may be absent -/

/-- Nothing begins like the stream of no tree. -/
theorem stream_append_ne (t : Tree) (x y : List UInt8) :
    stream t ++ x ≠ optionalStream none ++ y := by
  intro same
  cases t <;> simp [stream, pieces, optionalStream, optionalPieces] at same

theorem optionalStream_endsItself : EndsItself (Tree.Slot Sized) optionalStream := by
  intro s t hs ht x y same
  match s, t with
  | none, none => exact ⟨rfl, List.append_cancel_left same⟩
  | none, some u => exact absurd same.symm (stream_append_ne u y x)
  | some u, none => exact absurd same (stream_append_ne u x y)
  | some u, some w =>
    obtain ⟨rfl, behind⟩ := stream_append_inj u w (hs u rfl) (ht w rfl) same
    exact ⟨rfl, behind⟩

/-- A stream that begins another is that stream, and the trees are the same. What is taken in piece
by piece is what the pieces joined are, so a fingerprint depends on the stream alone. -/
theorem optionalStream_identifies :
    (∀ s t : Option Tree, Tree.Slot Sized s → Tree.Slot Sized t →
      (optionalStream s = optionalStream t → s = t) ∧
        (optionalStream s <+: optionalStream t → optionalStream s = optionalStream t)) ∧
    (∀ (h : Fnv) (chunks : List (List UInt8)), h.writeAll chunks = h.write chunks.flatten) ∧
    ∀ t : Option Tree, ofOptional t = (Fnv.empty.write (optionalStream t)).state := by
  have begins : ∀ {s t : Option Tree}, Tree.Slot Sized s → Tree.Slot Sized t →
      optionalStream s <+: optionalStream t → s = t := by
    rintro s t hs ht ⟨x, split⟩
    exact (optionalStream_endsItself hs ht (split.trans (List.append_nil _).symm)).1
  refine ⟨fun s t hs ht => ⟨fun same => begins hs ht ?_, fun start => ?_⟩, Fnv.writeAll_eq, ?_⟩
  · exact same ▸ List.prefix_refl _
  · rw [begins hs ht start]
  · intro t
    rw [ofOptional, Fnv.writeAll_eq]
    rfl

/-- A letter that moves from a key into the text under it, and no tree beside a null. -/
theorem optionalStream_identifies_moved_letter :
    let flat : Tree := .map [("ab", .text "c")]
    let split : Tree := .map [("a", .text "bc")]
    optionalStream (some flat) ≠ optionalStream (some split) ∧
      ¬ optionalStream none <+: optionalStream (some .null) := by
  intro flat split
  refine ⟨fun same => ?_, fun start => ?_⟩
  · have trees := (optionalStream_identifies.1 (some flat) (some split) (by decide +kernel)
      (by decide +kernel)).1 same
    revert trees
    decide +kernel
  · obtain ⟨identify, whole⟩ :=
      optionalStream_identifies.1 none (some .null) (by decide) (by decide)
    cases identify (whole start)

end Fingerprint

end TableMotion
