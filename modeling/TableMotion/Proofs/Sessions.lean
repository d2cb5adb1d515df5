import TableMotion.Proofs.Packages
import TableMotion.Proofs.Reencoding

/-!
# Recordings read back

A recording that is written as a document and read again comes back exactly if each of its messages
lasts and is nested no deeper than the document leaves room for (`reread_iff`). That holds for every
lawful package. In a document of the package that runs here a tick lasts if the decimals of its
numbers are short (`lasts_tick_of_isShort`), and not if one of them is read as another number.
-/

namespace TableMotion

/-! ## Messages as documents -/

namespace Tree

theorem wellFormed_amountToJson (a : Amount) : (amountToJson a).WellFormed := by
  rw [amountToJson]
  split
  · next whole =>
    obtain ⟨⟨low, high⟩, -⟩ := whole_spec whole
    exact ⟨low, Int.lt_trans high (by decide)⟩
  · unfold Json.ofBinary64
    split <;> trivial

mutual

/-- A well-formed tree is written as a well-formed value. -/
theorem wellFormed_toJson : (t : Tree) → t.WellFormed → t.toJson.WellFormed
  | .null, _ | .bool _, _ | .text _, _ => trivial
  | .amount a, _ => wellFormed_amountToJson a
  | .list items, h => by
    rw [toJson]
    exact wellFormedItems_itemsToJson items h
  | .map fields, h => by
    rw [toJson]
    exact ⟨Message.sorted_fieldsToJson h.1, wellFormedMembers_fieldsToJson fields h.2⟩

theorem wellFormedItems_itemsToJson :
    (items : List Tree) → WellFormedItems items → Json.WellFormedItems (itemsToJson items)
  | [], _ => trivial
  | t :: rest, h => ⟨wellFormed_toJson t h.1, wellFormedItems_itemsToJson rest h.2⟩

theorem wellFormedMembers_fieldsToJson :
    (fields : List (String × Tree)) → WellFormedFields fields →
      Json.WellFormedMembers (fieldsToJson fields)
  | [], _ => trivial
  | (_, t) :: rest, h => ⟨wellFormed_toJson t h.1, wellFormedMembers_fieldsToJson rest h.2⟩

end

end Tree

namespace Message

variable {d entries : Dictionary Json} {payload : Tree}

theorem wellFormed_insertAll (hd : (Json.object d).WellFormed)
    (he : ∀ e ∈ entries, e.2.WellFormed) :
    (Json.object (Dictionary.insertAll d entries)).WellFormed :=
  ⟨hd.1.insertAll entries, Json.wellFormedMembers_iff.2
    (Dictionary.forall_insertAll Json.WellFormed (Json.wellFormedMembers_iff.1 hd.2) he)⟩

theorem wellFormed_withPayload (hd : (Json.object d).WellFormed) (hp : payload.WellFormed) :
    (Json.object (withPayload d payload)).WellFormed := by
  have whole := Tree.wellFormed_toJson payload hp
  by_cases other : ∀ fields, payload ≠ .map fields
  · rw [withPayload_of_not_map other]
    exact wellFormed_insertAll hd (by simpa using whole)
  · obtain ⟨fields, rfl⟩ : ∃ fields, payload = .map fields := by simpa using other
    rw [withPayload_map]
    exact wellFormed_insertAll hd (Json.wellFormedMembers_iff.1 whole.2)

theorem wellFormed_envelope (kind : String) (version : Option Int) (merges : Bool)
    (range : ∀ n ∈ version, -0x8000000000000000 ≤ n ∧ n < 0x8000000000000000) :
    (Json.object (envelope kind version merges)).WellFormed := by
  refine ⟨(isEnvelope_envelope kind version merges).ordered, ?_⟩
  cases version with
  | none => cases merges <;> simp [envelope, Json.WellFormedMembers, Json.WellFormed]
  | some n =>
    obtain ⟨low, high⟩ := range n rfl
    have fits : (Json.integer n).WellFormed := ⟨low, Int.lt_trans high (by decide)⟩
    cases merges
    · exact ⟨trivial, fits, trivial⟩
    · exact ⟨trivial, trivial, fits, trivial⟩

/-- What was read is written as a well-formed value. -/
theorem IsSound.wellFormed_toJson {m : Message} (h : m.IsSound) : m.toJson.WellFormed := by
  have named : ∀ kind, (Json.object [("type", .text kind)]).WellFormed := fun kind =>
    wellFormed_envelope kind none false nofun
  cases h with
  | gameState version payload =>
    rw [toJson, updateMembers_eq]
    exact wellFormed_withPayload (wellFormed_envelope _ _ _ version) payload
  | tournament version fields =>
    rw [toJson, updateMembers_eq]
    exact wellFormed_withPayload (wellFormed_envelope _ _ _ version) fields.1
  | chat fields | notification fields => exact wellFormed_withPayload (named _) fields.1
  | @tick step =>
    have number : ∀ x, (Json.ofBinary64 x).WellFormed := by
      intro x
      unfold Json.ofBinary64
      split <;> trivial
    rw [toJson]
    apply wellFormed_insertAll (named _)
    intro e member
    cases speed : step.speed <;> simp [tickMembers, speed] at member <;> grind
  | unrecognized => exact named _

/-- A tick lasts in a document of the package that runs here if the decimals of its numbers are
short. -/
theorem lasts_tick_of_isShort {step : Tick} (h : (Message.tick step).IsSound)
    (short : ∀ x ∈ step.time :: step.former :: step.speed.toList,
      Json.Reader.IsShort (Binary64.shortest .toEven x.magnitude)) :
    (Message.tick step).Lasts Json.Reader.again? :=
  h.lasts_tick fun x member => Json.Reader.again?_eq_self (short x.1 member)

end Message

/-! ## Recordings -/

namespace Recording

variable {again : FiniteBinary64 → Option FiniteBinary64} {package : JsonPackage}

/-- An entry as it can stand in a recording: its number fits 64 bits, and its message was read. -/
def IsRead (e : Entry) : Prop :=
  e.seq < 0x10000000000000000 ∧ ∃ j : Json, j.WellFormed ∧ Message.ofJson j = .ok e.message

/-- An entry comes back exactly if its message lasts and the document leaves room for it. -/
theorem entryAgain?_eq_some_iff {e : Entry} (sound : e.message.IsSound) :
    entryAgain? again Message.ofJson (e.seq, e.message.toJson) = some e ↔
      e.message.Lasts again ∧ e.message.toJson.depth + 3 ≤ Json.nestingLimit := by
  obtain ⟨seq, m⟩ := e
  have room : m.toJson.depth ≤ Json.nestingLimit - 3 ↔ m.toJson.depth + 3 ≤ Json.nestingLimit := by
    rw [Json.nestingLimit]
    omega
  rw [entryAgain?, Json.reread?]
  split
  · next fits =>
    rw [and_iff_left (room.1 fits.1), ← Message.ofJson_reread_iff sound, Option.bind_some]
    cases Message.ofJson (m.toJson.reread again) <;> simp [Except.toOption]
  · next refused =>
    refine iff_of_false (by simp) ?_
    rintro ⟨lasts, fits⟩
    exact refused ⟨room.2 fits, Message.isReadable_toJson lasts⟩

theorem mapM_eq_self_iff {α : Type} {f : α → Option α} {xs : List α} :
    xs.mapM f = some xs ↔ ∀ x ∈ xs, f x = some x := by
  induction xs with
  | nil => simp
  | cons x xs ih =>
    rw [List.mapM_cons, List.forall_mem_cons, ← ih]
    cases f x <;> cases xs.mapM f <;> simp

/-- A recording is read back as itself exactly if each of its messages lasts and is nested no deeper
than the document, which opens three levels around it, leaves room for. -/
theorem ofText_text_eq_iff (lawful : package.Lawful again) {r : Recording}
    (h : ∀ e ∈ r.entries, e.seq < 0x10000000000000000 ∧ e.message.IsSound) :
    ofText (r.text package) package = .ok r ↔
      ∀ e ∈ r.entries,
        e.message.Lasts again ∧ e.message.toJson.depth + 3 ≤ Json.nestingLimit := by
  obtain ⟨entries⟩ := r
  have read := lawful.read_write Message.ofJson
    (entries.map fun e => (e.seq, e.message.toJson)) (by
      intro e member
      obtain ⟨e, own, rfl⟩ := List.mem_map.1 member
      exact ⟨(h e own).1, (h e own).2.wellFormed_toJson⟩)
  have whole : ofText (text ⟨entries⟩ package) package = .ok ⟨entries⟩ ↔
      entries.mapM (fun e => entryAgain? again Message.ofJson (e.seq, e.message.toJson)) =
        some entries := by
    rw [List.mapM_map] at read
    have asked : ofText (text ⟨entries⟩ package) package = .ok ⟨entries⟩ ↔
        (package.read Message.ofJson (package.write (document
          (entries.map fun e => (e.seq, e.message.toJson))))).toOption = some ⟨entries⟩ := by
      simp only [ofText, text, toJson]
      cases package.read Message.ofJson _ <;> simp [Except.mapError, Except.toOption]
    rw [asked, read, Function.comp_def]
    simp
  rw [whole, mapM_eq_self_iff]
  exact forall₂_congr fun e member => entryAgain?_eq_some_iff (h e member).2

/-- What was read is written and read as itself exactly if it lasts: as a message by itself, and in
a recording as far as the package reads its numbers back and the document leaves room. -/
theorem reread_iff (lawful : package.Lawful again) {j : Json} {m : Message} {r : Recording}
    (hj : j.WellFormed) (read : Message.ofJson j = .ok m) (hr : ∀ e ∈ r.entries, IsRead e) :
    (Message.ofJson m.toJson = .ok m ↔ m.Lasts some) ∧
      (ofText (r.text package) package = .ok r ↔
        ∀ e ∈ r.entries,
          e.message.Lasts again ∧ e.message.toJson.depth + 3 ≤ Json.nestingLimit) := by
  constructor
  · rw [← Message.ofJson_reread_iff (Message.isSound_of_ofJson hj read), Json.reread_some]
  · apply ofText_text_eq_iff lawful
    intro e member
    obtain ⟨small, j', ordered, read'⟩ := hr e member
    exact ⟨small, Message.isSound_of_ofJson ordered read'⟩

/-- A wrapped game state with a field named `type`. -/
def cashState : Json := .object [
  ("gamestate", .object [("pot", .integer 5), ("type", .text "cash")]),
  ("type", .text "UPDATE_GAMESTATE"), ("version", .integer 4)]

/-- Its message. -/
def cashMessage : Message := .gameState {
  version := some 4, merges := false
  payload := .map [("pot", .amount ⟨5000000, by decide⟩), ("type", .text "cash")] }

/-- A line of chat. -/
def greeting : Json := .object [("text", .text "hello"), ("type", .text "UPDATE_CHAT")]

/-- Its message. -/
def greetingMessage : Message := .chat (.map [("text", .text "hello")])

/-- A tick from a hundred to a time with a fraction. -/
def tickTo (time : FiniteBinary64) : Json := .object [
  ("former_time", .integer 100), ("type", .text "TICK"), ("warped_time", .real time)]

/-- Its message. -/
def tickToMessage (time : FiniteBinary64) : Message := .tick ⟨time.1, 100, none⟩

/-- `116.66666666666667`, which is read as `116.66666666666669`. -/
def third : FiniteBinary64 := ⟨.ofRatio false 350 3, by decide +kernel⟩

/-- `116.7`, which is read as itself. -/
def tenth : FiniteBinary64 := ⟨.ofRatio false 1167 10, by decide +kernel⟩

theorem reread_iff_cash :
    (cashState.WellFormed ∧ Message.ofJson cashState = .ok cashMessage ∧
      Message.ofJson cashMessage.toJson ≠ .ok cashMessage) ∧
    (greeting.WellFormed ∧ Message.ofJson greeting = .ok greetingMessage ∧
      Message.ofJson greetingMessage.toJson = .ok greetingMessage) ∧
    ofText (text ⟨[⟨0, greetingMessage⟩]⟩) = .ok ⟨[⟨0, greetingMessage⟩]⟩ ∧
    ofText (text ⟨[⟨0, greetingMessage⟩, ⟨1, cashMessage⟩]⟩) ≠
      .ok ⟨[⟨0, greetingMessage⟩, ⟨1, cashMessage⟩]⟩ ∧
    Message.ofJson (tickToMessage third).toJson = .ok (tickToMessage third) ∧
    ofText (text ⟨[⟨0, tickToMessage third⟩]⟩) ≠ .ok ⟨[⟨0, tickToMessage third⟩]⟩ ∧
    ofText (text ⟨[⟨0, tickToMessage tenth⟩]⟩) = .ok ⟨[⟨0, tickToMessage tenth⟩]⟩ := by
  have cashOrdered : cashState.WellFormed := by
    refine ⟨by decide, ⟨by decide, ?_⟩, ?_⟩ <;> simp [Json.WellFormedMembers, Json.WellFormed]
  have greetingOrdered : greeting.WellFormed :=
    ⟨by decide, trivial, trivial, trivial⟩
  have keys : List.Pairwise (· < ·) ["former_time", "type", "warped_time"] := by decide
  have tickOrdered : ∀ time, (tickTo time).WellFormed :=
    fun _ => ⟨(List.pairwise_map (R := (· < ·)) (f := Prod.fst)).1 keys, ⟨by decide, by decide⟩,
      trivial, trivial, trivial⟩
  have cashRead : Message.ofJson cashState = .ok cashMessage := rfl
  have greetingRead : Message.ofJson greeting = .ok greetingMessage := rfl
  have tickRead : ∀ time, Message.ofJson (tickTo time) = .ok (tickToMessage time) := fun _ => rfl
  have tickSound : ∀ time, (tickToMessage time).IsSound := fun time =>
    Message.isSound_of_ofJson (tickOrdered time) (tickRead time)
  have cashLost : ∀ again, ¬ cashMessage.Lasts again := fun _ lasts => absurd lasts.2 (by decide)
  have greetingLasts : ∀ again, greetingMessage.Lasts again := fun _ => rfl
  have cashEntry : IsRead ⟨1, cashMessage⟩ := ⟨by decide, _, cashOrdered, cashRead⟩
  have greetingEntry : IsRead ⟨0, greetingMessage⟩ := ⟨by decide, _, greetingOrdered, greetingRead⟩
  have tickEntry : ∀ time, ∀ e ∈ [Entry.mk 0 (tickToMessage time)], IsRead e := by
    intro time e member
    rw [List.mem_singleton.1 member]
    exact ⟨(by decide : 0 < 0x10000000000000000), _, tickOrdered time, tickRead time⟩
  have one : ∀ e ∈ [Entry.mk 0 greetingMessage], IsRead e := by
    simpa using greetingEntry
  have both : ∀ e ∈ [Entry.mk 0 greetingMessage, Entry.mk 1 cashMessage], IsRead e := by
    simpa using ⟨greetingEntry, cashEntry⟩
  have shallow : greetingMessage.toJson.depth + 3 ≤ Json.nestingLimit := by decide
  have lawful := JsonPackage.lawful_standard
  obtain ⟨greetingAlone, greetingRecorded⟩ :=
    reread_iff (r := ⟨[⟨0, greetingMessage⟩]⟩) lawful greetingOrdered greetingRead one
  obtain ⟨cashAlone, bothRecorded⟩ :=
    reread_iff (r := ⟨[⟨0, greetingMessage⟩, ⟨1, cashMessage⟩]⟩) lawful cashOrdered cashRead both
  obtain ⟨thirdAlone, thirdRecorded⟩ := reread_iff (r := ⟨[⟨0, tickToMessage third⟩]⟩) lawful
    (tickOrdered third) (tickRead third) (tickEntry third)
  obtain ⟨-, tenthRecorded⟩ := reread_iff (r := ⟨[⟨0, tickToMessage tenth⟩]⟩) lawful
    (tickOrdered tenth) (tickRead tenth) (tickEntry tenth)
  refine ⟨⟨cashOrdered, cashRead, fun same => cashLost some (cashAlone.1 same)⟩,
    ⟨greetingOrdered, greetingRead, greetingAlone.2 (greetingLasts some)⟩,
    greetingRecorded.2 ?_,
    fun same => cashLost _ (bothRecorded.1 same ⟨1, cashMessage⟩ (by simp)).1,
    thirdAlone.2 ((tickSound third).lasts_tick fun _ _ => rfl), fun same => ?_, tenthRecorded.2 ?_⟩
  · simpa using ⟨greetingLasts _, shallow⟩
  · have lost : ¬ (tickToMessage third).Lasts Json.Reader.again? := by decide +kernel
    exact lost (thirdRecorded.1 same ⟨0, tickToMessage third⟩ (by simp)).1
  · have short : ∀ x ∈ [tenth.1, 100],
        Json.Reader.IsShort (Binary64.shortest .toEven x.magnitude) := by
      simpa using ⟨⟨by decide +kernel, by decide +kernel⟩, ⟨by decide +kernel, by decide +kernel⟩⟩
    have lasts : (tickToMessage tenth).Lasts Json.Reader.again? :=
      Message.lasts_tick_of_isShort (tickSound tenth) short
    simpa using ⟨lasts, by decide +kernel⟩

end Recording

end TableMotion
