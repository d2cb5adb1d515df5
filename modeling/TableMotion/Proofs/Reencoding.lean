import TableMotion.Message.Wire
import TableMotion.Proofs.Lasting

/-!
# Messages encoded again

A message that was read from JSON is written back with its payload beside the envelope. It is read
as itself again exactly if its numbers and texts last, and the payload of a game state can be told
from the envelope (`ofJson_reread_iff`). What its floating numbers are read as is left open, as it
is for trees.
-/

namespace TableMotion

/-! ## Payloads beside the envelope -/

namespace Message

/-- A key that belongs to the payload. -/
def isPayloadKey (key : String) : Bool := !envelopeFields.contains key

/-- A payload whose fields can be told from the envelope: none has a name of its members, and they
are not a `gamestate` alone, which stands for the state it holds. -/
def standsApart : Tree → Bool
  | .map fields => fields.all (fun f => isPayloadKey f.1) && fields.map (·.1) ≠ [stateField]
  | _ => true

/-- Members in order that belong to the envelope, with no floating number among them. -/
structure IsEnvelope (d : Dictionary Json) : Prop where
  ordered : Dictionary.Sorted d
  own : ∀ e ∈ d, isPayloadKey e.1 = false
  plain : ∀ again, Json.rereadMembers again d = d

variable {d : Dictionary Json} {fields : Dictionary Tree} {payload : Tree}
  {again : FiniteBinary64 → Option FiniteBinary64}

theorem withPayload_map (d : Dictionary Json) (fields : Dictionary Tree) :
    withPayload d (.map fields) = Dictionary.insertAll d (Tree.fieldsToJson fields) := by
  rw [withPayload, Tree.toJson]
  rfl

theorem withPayload_of_not_map (other : ∀ fields, payload ≠ .map fields) :
    withPayload d payload = Dictionary.insertAll d [(stateField, payload.toJson)] := by
  cases payload with
  | map fields => exact absurd rfl (other fields)
  | amount a =>
    have scalar : ∀ members, Tree.amountToJson a ≠ .object members := by
      intro members same
      have := Tree.depth_amountToJson a
      simp [same, Json.depth] at this
    rw [withPayload, Tree.toJson]
    split
    · next members same => exact absurd same (scalar members)
    · rfl
  | null | bool | text | list => rfl

/-- Beside an envelope the fields of a payload are read again, each by itself. -/
theorem reread_withPayload_map (hd : IsEnvelope d) (fields : Dictionary Tree) :
    Json.rereadMembers again (withPayload d (.map fields)) =
      Dictionary.insertAll d (Json.rereadMembers again (Tree.fieldsToJson fields)) := by
  rw [withPayload_map, Json.rereadMembers_eq_mapValues, Dictionary.mapValues_insertAll,
    ← Json.rereadMembers_eq_mapValues, ← Json.rereadMembers_eq_mapValues, hd.plain]

theorem reread_withPayload_of_not_map (hd : IsEnvelope d)
    (other : ∀ fields, payload ≠ .map fields) :
    Json.rereadMembers again (withPayload d payload) =
      Dictionary.insertAll d [(stateField, payload.toJson.reread again)] := by
  rw [withPayload_of_not_map other, Json.rereadMembers_eq_mapValues,
    Dictionary.mapValues_insertAll, ← Json.rereadMembers_eq_mapValues, hd.plain]
  rfl

theorem sorted_fieldsToJson (h : Dictionary.Sorted fields) :
    Dictionary.Sorted (Tree.fieldsToJson fields) := by
  rw [Tree.fieldsToJson_eq_map]
  exact List.pairwise_map.2 h

theorem payloadFields_eq (members : Dictionary Json) :
    payloadFields members =
      (members.filter fun m => isPayloadKey m.1).map fun m => (m.1, Tree.ofJson m.2) :=
  Tree.ofMembers_eq_map _

theorem sorted_reread (h : Dictionary.Sorted fields) :
    Dictionary.Sorted (Json.rereadMembers again (Tree.fieldsToJson fields)) := by
  rw [Json.rereadMembers_eq_mapValues]
  exact (sorted_fieldsToJson h).mapValues _

/-- The fields of a payload are read again, those named like members of the envelope left out. -/
theorem payloadFields_withPayload_map (hd : IsEnvelope d) (hf : Dictionary.Sorted fields) :
    payloadFields (Json.rereadMembers again (withPayload d (.map fields))) =
      (fields.filter fun f => isPayloadKey f.1).map fun f =>
        (f.1, Tree.ofJson (f.2.toJson.reread again)) := by
  rw [payloadFields_eq, reread_withPayload_map hd,
    Dictionary.filter_insertAll hd.ordered (sorted_reread hf) hd.own]
  simp [Json.rereadMembers_eq_mapValues, Dictionary.mapValues, List.filter_map, Function.comp_def]

/-- What is no map is read again as the whole state. -/
theorem payloadFields_withPayload_of_not_map (hd : IsEnvelope d)
    (other : ∀ fields, payload ≠ .map fields) :
    payloadFields (Json.rereadMembers again (withPayload d payload)) =
      [(stateField, Tree.ofJson (payload.toJson.reread again))] := by
  rw [payloadFields_eq, reread_withPayload_of_not_map hd other,
    Dictionary.filter_insertAll hd.ordered (List.pairwise_singleton ..) hd.own]
  rfl

variable (again) in
/-- The fields of a map are read again exactly if none is named like a member of the envelope and
each lasts. -/
theorem payloadFields_withPayload_eq_iff (hd : IsEnvelope d) (hf : Dictionary.Sorted fields) :
    payloadFields (Json.rereadMembers again (withPayload d (.map fields))) = fields ↔
      (∀ f ∈ fields, isPayloadKey f.1 = true) ∧
        (Tree.map fields).all (Tree.lasts again) = true := by
  rw [payloadFields_withPayload_map hd hf]
  by_cases own : ∀ f ∈ fields, isPayloadKey f.1 = true
  · have each := @Tree.ofMembers_reread_eq_iff again fields
    rw [Tree.ofMembers_eq_map, Json.rereadMembers_eq_mapValues, Tree.fieldsToJson_eq_map,
      Dictionary.mapValues, List.map_map, List.map_map] at each
    rw [List.filter_eq_self.2 own, and_iff_right own, Tree.all]
    simpa [Tree.lasts, Function.comp_def] using each
  · refine ⟨fun same => absurd ?_ own, fun h => absurd h.1 own⟩
    have sizes := congrArg List.length same
    rw [List.length_map] at sizes
    exact List.filter_eq_self.1 (List.filter_sublist.eq_of_length sizes)

/-- What the payload of a game state is: the one field `gamestate`, or all fields. -/
theorem statePayload_cases (members : Dictionary Json) :
    (payloadFields members = [(stateField, statePayload members)]) ∨
      ((payloadFields members).map (·.1) ≠ [stateField] ∧
        statePayload members = .map (payloadFields members)) := by
  unfold statePayload
  generalize payloadFields members = fields
  split
  · next key state =>
    by_cases lone : key = stateField
    · simp [lone]
    · simp [lone]
  · next fields others =>
    refine .inr ⟨fun lone => ?_, rfl⟩
    obtain ⟨⟨key, state⟩, one, -⟩ := List.map_eq_singleton_iff.1 lone
    exact others key state one

variable (again) in
/-- The payload of a game state is read as itself exactly if it lasts and stands apart. -/
theorem statePayload_withPayload_eq_iff (hd : IsEnvelope d) (hp : payload.WellFormed) :
    statePayload (Json.rereadMembers again (withPayload d payload)) = payload ↔
      payload.all (Tree.lasts again) = true ∧ standsApart payload = true := by
  by_cases other : ∀ fields, payload ≠ .map fields
  · have apart : standsApart payload = true := by
      cases payload <;> first | rfl | exact absurd rfl (other _)
    rw [statePayload, payloadFields_withPayload_of_not_map hd other]
    simp [apart, Tree.ofJson_reread_eq_iff]
  · obtain ⟨fields, rfl⟩ : ∃ fields, payload = .map fields := by simpa using other
    have ordered : Dictionary.Sorted fields := hp.1
    have reads := payloadFields_withPayload_eq_iff again hd ordered
    have named : standsApart (.map fields) = true ↔
        (∀ f ∈ fields, isPayloadKey f.1 = true) ∧ fields.map (·.1) ≠ [stateField] := by
      simp [standsApart]
    rw [named]
    rcases statePayload_cases (Json.rereadMembers again (withPayload d (.map fields)))
      with lone | ⟨several, whole⟩
    · constructor
      · intro same
        have member : (stateField, Tree.map fields) ∈
            payloadFields (Json.rereadMembers again (withPayload d (.map fields))) := by
          rw [lone, same]
          exact List.mem_singleton_self _
        rw [payloadFields_withPayload_map hd ordered] at member
        simp only [List.mem_map, Prod.mk.injEq] at member
        obtain ⟨f, hf, -, whole⟩ := member
        exact absurd whole (Tree.ofJson_reread_ne_map (List.mem_filter.1 hf).1)
      · rintro ⟨lasts, own, keys⟩
        rw [reads.2 ⟨own, lasts⟩] at lone
        exact absurd (congrArg (List.map (·.1)) lone) keys
    · rw [whole, Tree.map.injEq]
      constructor
      · intro same
        obtain ⟨own, lasts⟩ := reads.1 same
        exact ⟨lasts, own, same ▸ several⟩
      · rintro ⟨lasts, own, -⟩
        exact reads.2 ⟨own, lasts⟩

/-- What is found beside a payload whose fields are its own. -/
theorem find?_withPayload (hd : IsEnvelope d) (hp : payload.WellFormed)
    (own : ∀ fields, payload = .map fields → ∀ f ∈ fields, isPayloadKey f.1 = true)
    {key : String} (enveloped : isPayloadKey key = false) :
    Dictionary.find? (Json.rereadMembers again (withPayload d payload)) key =
      Dictionary.find? d key := by
  by_cases other : ∀ fields, payload ≠ .map fields
  · have apart : stateField ≠ key := by
      rintro rfl
      exact absurd enveloped (by decide)
    rw [reread_withPayload_of_not_map hd other,
      Dictionary.find?_insertAll (List.pairwise_singleton ..), Dictionary.find?_cons,
      if_neg apart]
    rfl
  · obtain ⟨fields, rfl⟩ : ∃ fields, payload = .map fields := by simpa using other
    have absent : Dictionary.find? (Json.rereadMembers again (Tree.fieldsToJson fields)) key =
        none := by
      rw [Json.rereadMembers_eq_mapValues, Dictionary.find?_mapValues, Option.map_eq_none_iff,
        Option.eq_none_iff_forall_not_mem]
      intro v found
      have member := Dictionary.mem_of_find? found
      rw [Tree.fieldsToJson_eq_map, List.mem_map] at member
      obtain ⟨f, hf, same⟩ := member
      have : isPayloadKey f.1 = true := own fields rfl f hf
      rw [congrArg Prod.fst same, enveloped] at this
      cases this
    rw [reread_withPayload_map hd, Dictionary.find?_insertAll (sorted_reread hp.1), absent]
    rfl

/-! ## What is read -/

/-- The kinds that are known. -/
def knownKinds : List String :=
  ["UPDATE_GAMESTATE", "UPDATE_TOURNAMENT_STATE", "UPDATE_CHAT", "NOTIFICATION", "TICK"]

/-- A message is what its members are read as. -/
def IsReadFrom (members : Dictionary Json) : Message → Prop
  | .gameState update => updateOf members (statePayload members) = .ok update
  | .tournament update => updateOf members (.map (payloadFields members)) = .ok update
  | .chat payload | .notification payload => .map (payloadFields members) = payload
  | .tick step => tickOf members = .ok step
  | .unrecognized kind => kind ∉ knownKinds

theorem except_map_eq_ok_iff {ε α β : Type} {f : α → β} {r : Except ε α} {b : β} :
    r.map f = .ok b ↔ ∃ a, r = .ok a ∧ f a = b := by
  cases r <;> simp [Except.map]

theorem ofMembers_eq_ok_iff {kind : String} {members : Dictionary Json} {m : Message} :
    ofMembers kind members = .ok m ↔ m.kind = kind ∧ m.IsReadFrom members := by
  by_cases known : kind ∈ knownKinds
  · simp only [knownKinds, List.mem_cons, List.not_mem_nil, or_false] at known
    rcases known with rfl | rfl | rfl | rfl | rfl <;>
      cases m <;> simp [ofMembers, IsReadFrom, Message.kind, except_map_eq_ok_iff, knownKinds]
    all_goals grind
  · have unknown : ofMembers kind members = .ok (.unrecognized kind) := by
      simp only [knownKinds, List.mem_cons, List.not_mem_nil, or_false, not_or] at known
      simp [ofMembers, known]
    rw [unknown]
    constructor
    · intro same
      cases same
      exact ⟨rfl, known⟩
    · rintro ⟨rfl, -⟩
      cases m with
      | unrecognized kind => rfl
      | gameState | tournament | chat | notification | tick =>
        exact absurd (by simp [knownKinds, Message.kind]) known

theorem ofJson_object_eq_ok_iff {members : Dictionary Json} {m : Message} :
    ofJson (.object members) = .ok m ↔
      Dictionary.find? members "type" = some (.text m.kind) ∧ m.IsReadFrom members := by
  rw [ofJson]
  constructor
  · intro read
    split at read
    · next kind found =>
      obtain ⟨rfl, isRead⟩ := ofMembers_eq_ok_iff.1 read
      exact ⟨found, isRead⟩
    · cases read
  · rintro ⟨found, isRead⟩
    rw [found]
    exact ofMembers_eq_ok_iff.2 ⟨rfl, isRead⟩

theorem updateOf_eq_ok_iff {members : Dictionary Json} {update : Update} :
    updateOf members payload = .ok update ↔
      versionOf members = .ok update.version ∧ mergesOf members = .ok update.merges ∧
        payload = update.payload := by
  obtain ⟨version, held, merges⟩ := update
  rw [updateOf]
  cases versionOf members with
  | error e => simp [bind, Except.bind]
  | ok v =>
    cases mergesOf members with
    | error e => simp [bind, Except.bind]
    | ok b =>
      simp [bind, Except.bind, pure, Except.pure]
      grind

theorem tickOf_eq_ok_iff {members : Dictionary Json} {step : Tick} :
    tickOf members = .ok step ↔
      number members "warped_time" = .ok step.time ∧
        number members "former_time" = .ok step.former ∧
          number? members "speed" = .ok step.speed := by
  obtain ⟨time, former, speed⟩ := step
  rw [tickOf]
  cases number members "warped_time" with
  | error e => simp [bind, Except.bind]
  | ok t =>
    cases number members "former_time" with
    | error e => simp [bind, Except.bind]
    | ok f =>
      cases number? members "speed" with
      | error e => simp [bind, Except.bind]
      | ok s => simp [bind, Except.bind, pure, Except.pure]

/-! ## What was read -/

/-- The fields beside an envelope. -/
def IsFields (payload : Tree) : Prop :=
  payload.WellFormed ∧ ∃ fields, payload = .map fields ∧ ∀ f ∈ fields, isPayloadKey f.1 = true

theorem IsFields.own {payload : Tree} (h : IsFields payload) :
    ∀ fields, payload = .map fields → ∀ f ∈ fields, isPayloadKey f.1 = true := by
  obtain ⟨-, fields, rfl, own⟩ := h
  intro others same
  rw [Tree.map.injEq] at same
  exact same ▸ own

/-- What a message read from a well-formed value is made of. -/
inductive IsSound : Message → Prop
  | gameState {update : Update}
    (version : ∀ n ∈ update.version, -0x8000000000000000 ≤ n ∧ n < 0x8000000000000000)
    (payload : update.payload.WellFormed) : IsSound (.gameState update)
  | tournament {update : Update}
    (version : ∀ n ∈ update.version, -0x8000000000000000 ≤ n ∧ n < 0x8000000000000000)
    (payload : IsFields update.payload) : IsSound (.tournament update)
  | chat {payload : Tree} (fields : IsFields payload) : IsSound (.chat payload)
  | notification {payload : Tree} (fields : IsFields payload) : IsSound (.notification payload)
  | tick {step : Tick} (time : step.time.isFinite = true) (former : step.former.isFinite = true)
    (speed : ∀ x ∈ step.speed, x.isFinite = true) : IsSound (.tick step)
  | unrecognized {kind : String} (unknown : kind ∉ knownKinds) : IsSound (.unrecognized kind)

theorem versionOf_range {members : Dictionary Json} {version : Option Int}
    (h : versionOf members = .ok version) :
    ∀ n ∈ version, -0x8000000000000000 ≤ n ∧ n < 0x8000000000000000 := by
  unfold versionOf at h
  split at h
  · cases h
    simp
  · split at h
    · next range =>
      cases h
      simpa using range
    · cases h
  · cases h

section

variable {members : Dictionary Json} (hm : (Json.object members).WellFormed)
include hm

theorem isFields_payloadFields : IsFields (.map (payloadFields members)) := by
  constructor
  · apply Tree.wellFormed_ofJson (.object (members.filter fun m => isPayloadKey m.1))
    refine ⟨hm.1.filter _, Json.wellFormedMembers_iff.2 fun m kept => ?_⟩
    exact Json.wellFormedMembers_iff.1 hm.2 m (List.mem_filter.1 kept).1
  · refine ⟨_, rfl, fun f hf => ?_⟩
    rw [payloadFields_eq, List.mem_map] at hf
    obtain ⟨m, kept, rfl⟩ := hf
    exact (List.mem_filter.1 kept).2

theorem wellFormed_statePayload : (statePayload members).WellFormed := by
  have fields := (isFields_payloadFields hm).1
  rcases statePayload_cases members with lone | ⟨-, whole⟩
  · rw [lone, Tree.wellFormed_map] at fields
    exact fields.2 _ (List.mem_singleton_self _)
  · rw [whole]
    exact fields

/-- A number that is read is finite. -/
theorem isFinite_of_number? {key : String} {found : Option Binary64}
    (h : number? members key = .ok found) : ∀ x ∈ found, x.isFinite = true := by
  unfold number? at h
  split at h
  · cases h
    simp
  · next n held =>
    cases h
    have member : (key, Json.integer n) ∈ members := by
      apply Dictionary.mem_of_find?
      unfold member? at held
      split at held <;> simp_all
    have range := Json.wellFormedMembers_iff.1 hm.2 _ member
    have size : n.natAbs ≤ 0x10000000000000000 := by
      have : -0x8000000000000000 ≤ n ∧ n < 0x10000000000000000 := range
      omega
    simpa using Binary64.isFinite_ofInt size
  · next x held =>
    cases h
    simpa using x.2
  · cases h

theorem isFinite_of_number {key : String} {x : Binary64} (h : number members key = .ok x) :
    x.isFinite = true := by
  rw [number] at h
  cases found : number? members key with
  | error e => simp [found, bind, Except.bind] at h
  | ok v =>
    cases v with
    | none => simp [found, bind, Except.bind, throw, throwThe, MonadExceptOf.throw] at h
    | some y =>
      have same : y = x := by
        simpa [found, bind, Except.bind, pure, Except.pure] using h
      exact same ▸ isFinite_of_number? hm found y rfl

end

/-- What a well-formed value is read as is sound. -/
theorem isSound_of_ofJson {j : Json} {m : Message} (hj : j.WellFormed) (h : ofJson j = .ok m) :
    m.IsSound := by
  cases j with
  | object members =>
    obtain ⟨-, isRead⟩ := ofJson_object_eq_ok_iff.1 h
    cases m with
    | gameState update =>
      obtain ⟨version, -, payload⟩ := updateOf_eq_ok_iff.1 isRead
      exact .gameState (versionOf_range version) (payload ▸ wellFormed_statePayload hj)
    | tournament update =>
      obtain ⟨version, -, payload⟩ := updateOf_eq_ok_iff.1 isRead
      exact .tournament (versionOf_range version) (payload ▸ isFields_payloadFields hj)
    | chat payload => exact .chat ((isRead : _ = payload) ▸ isFields_payloadFields hj)
    | notification payload =>
      exact .notification ((isRead : _ = payload) ▸ isFields_payloadFields hj)
    | tick step =>
      obtain ⟨time, former, speed⟩ := tickOf_eq_ok_iff.1 isRead
      exact .tick (isFinite_of_number hj time) (isFinite_of_number hj former)
        (isFinite_of_number? hj speed)
    | unrecognized kind => exact .unrecognized isRead
  | null | bool | integer | real | text | array => cases h

/-! ## What is written -/

/-- The members of an update without its payload. -/
def envelope (kind : String) (version : Option Int) (merges : Bool) : Dictionary Json :=
  (if merges then [("partial", .bool true)] else []) ++ ("type", .text kind) ::
    (version.toList.map fun n => ("version", .integer n))

theorem updateMembers_eq (kind : String) (update : Update) :
    updateMembers kind update =
      withPayload (envelope kind update.version update.merges) update.payload := by
  obtain ⟨version, payload, merges⟩ := update
  cases version <;> cases merges <;> rfl

theorem isEnvelope_envelope (kind : String) (version : Option Int) (merges : Bool) :
    IsEnvelope (envelope kind version merges) := by
  constructor
  · have order : List.Pairwise (· < ·) ["partial", "type", "version"] := by decide
    have keys : ((envelope kind version merges).map (·.1)).Sublist
        ["partial", "type", "version"] := by
      cases version <;> cases merges <;> simp [envelope]
    exact List.pairwise_map.1 (order.sublist keys)
  · cases version <;> cases merges <;> simp [envelope, isPayloadKey, envelopeFields]
  · cases version <;> cases merges <;> intro again <;> rfl

theorem isEnvelope_type (kind : String) : IsEnvelope [("type", .text kind)] :=
  isEnvelope_envelope kind none false

/-- The envelope of an update is read back, whatever stands beside it under other names. -/
theorem updateOf_withPayload {update : Update} {kind : String} {whole : Tree}
    (version : ∀ n ∈ update.version, -0x8000000000000000 ≤ n ∧ n < 0x8000000000000000)
    (hp : update.payload.WellFormed)
    (own : ∀ fields, update.payload = .map fields → ∀ f ∈ fields, isPayloadKey f.1 = true)
    (same : whole = update.payload) :
    Dictionary.find? (Json.rereadMembers again (updateMembers kind update)) "type" =
        some (.text kind) ∧
      updateOf (Json.rereadMembers again (updateMembers kind update)) whole = .ok update := by
  have found : ∀ key, isPayloadKey key = false →
      Dictionary.find? (Json.rereadMembers again (updateMembers kind update)) key =
        Dictionary.find? (envelope kind update.version update.merges) key := by
    intro key enveloped
    rw [updateMembers_eq, find?_withPayload (isEnvelope_envelope ..) hp own enveloped]
  have foundType := found "type" (by decide)
  have foundVersion := found "version" (by decide)
  have foundPartial := found "partial" (by decide)
  generalize Json.rereadMembers again (updateMembers kind update) = members at *
  rw [foundType, updateOf_eq_ok_iff, versionOf, mergesOf, member?, member?, foundVersion,
    foundPartial]
  obtain ⟨n | n, payload, merges⟩ := update
  · cases merges <;> simp [envelope, Dictionary.find?, same]
  · have range := version n rfl
    cases merges <;> simp [envelope, Dictionary.find?, same, range]

/-- A number that is read as itself. -/
def keeps (again : FiniteBinary64 → Option FiniteBinary64) (x : Binary64) : Bool :=
  ((Json.finite? x).bind again).map (·.1) = some x

/-- The payload of a message lasts, and that of a game state can be told from the envelope. The
numbers of a tick are read as themselves. -/
def Lasts (again : FiniteBinary64 → Option FiniteBinary64) : Message → Prop
  | .gameState update =>
    update.payload.all (Tree.lasts again) = true ∧ standsApart update.payload = true
  | .tournament update => update.payload.all (Tree.lasts again) = true
  | .chat payload | .notification payload => payload.all (Tree.lasts again) = true
  | .tick step => ∀ x ∈ step.time :: step.former :: step.speed.toList, keeps again x = true
  | .unrecognized _ => True

instance (m : Message) : Decidable (m.Lasts again) := by
  cases m <;> unfold Lasts <;> infer_instance

theorem keeps_iff {x : Binary64} (finite : x.isFinite = true) :
    keeps again x = true ↔ again ⟨x, finite⟩ = some ⟨x, finite⟩ := by
  rw [keeps, Json.finite?_of_isFinite finite, decide_eq_true_eq, Option.bind_some]
  cases again ⟨x, finite⟩ <;> simp [Subtype.ext_iff]

/-- The numbers of a tick that was read are finite. -/
theorem IsSound.isFinite_tick {step : Tick} (h : (Message.tick step).IsSound) :
    ∀ x ∈ step.time :: step.former :: step.speed.toList, x.isFinite = true := by
  cases h with
  | tick time former speed => simpa using ⟨time, former, speed⟩

/-- A tick lasts if each of its numbers is read as itself, so by itself it always does. -/
theorem IsSound.lasts_tick {step : Tick} (h : (Message.tick step).IsSound)
    (same : ∀ x : FiniteBinary64, x.1 ∈ step.time :: step.former :: step.speed.toList →
      again x = some x) : (Message.tick step).Lasts again := by
  intro x member
  have finite := h.isFinite_tick x member
  exact (keeps_iff finite).2 (same ⟨x, finite⟩ member)

/-- A number is found as the one it is read as, and not at all if it is refused. -/
theorem number?_of_find? {members : Dictionary Json} {key : String} {x : Binary64}
    (h : Dictionary.find? members key = some ((Json.ofBinary64 x).reread again)) :
    number? members key = .ok (((Json.finite? x).bind again).map (·.1)) := by
  rw [Json.reread_ofBinary64] at h
  rw [number?, member?, h]
  cases (Json.finite? x).bind again <;> rfl

theorem number_eq_ok_iff {members : Dictionary Json} {key : String} {x : Binary64} :
    number members key = .ok x ↔ number? members key = .ok (some x) := by
  rw [number]
  cases number? members key with
  | error e => simp [bind, Except.bind]
  | ok found => cases found <;> simp [bind, Except.bind, pure, Except.pure, throw, throwThe,
      MonadExceptOf.throw]

/-- What stands in a tick. -/
theorem find?_tick (step : Tick) :
    ∃ members, (Message.tick step).toJson = .object members ∧
      Dictionary.find? members "type" = some (.text "TICK") ∧
      Dictionary.find? members "warped_time" = some (Json.ofBinary64 step.time) ∧
      Dictionary.find? members "former_time" = some (Json.ofBinary64 step.former) ∧
      Dictionary.find? members "speed" = step.speed.map Json.ofBinary64 := by
  obtain ⟨time, former, speed⟩ := step
  refine ⟨_, rfl, ?_⟩
  cases speed <;> simp [tickMembers, kind, Dictionary.find?_insert_of_ne, Dictionary.find?_cons]

/-- A tick is read as itself exactly if each of its numbers is. -/
theorem ofJson_reread_tick_iff (step : Tick) :
    ofJson ((Message.tick step).toJson.reread again) = .ok (.tick step) ↔
      (Message.tick step).Lasts again := by
  obtain ⟨members, spelled, foundType, foundTime, foundFormer, foundSpeed⟩ := find?_tick step
  have found : ∀ key, Dictionary.find? (Json.rereadMembers again members) key =
      (Dictionary.find? members key).map (Json.reread again) := by
    intro key
    rw [Json.rereadMembers_eq_mapValues, Dictionary.find?_mapValues]
  have number : ∀ {key x}, Dictionary.find? members key = some (Json.ofBinary64 x) →
      (number? (Json.rereadMembers again members) key = .ok (some x) ↔ keeps again x = true) := by
    intro key x held
    rw [number?_of_find? (by rw [found, held, Option.map_some]), keeps]
    simp
  have speed : number? (Json.rereadMembers again members) "speed" = .ok step.speed ↔
      ∀ x ∈ step.speed.toList, keeps again x = true := by
    cases held : step.speed with
    | none => simp [number?, member?, found, foundSpeed, held]
    | some x =>
      rw [held, Option.map_some] at foundSpeed
      simp [number foundSpeed]
  rw [spelled, Json.reread, ofJson_object_eq_ok_iff, found, foundType]
  simp only [IsReadFrom, tickOf_eq_ok_iff, number_eq_ok_iff, number foundTime,
    number foundFormer, speed, Lasts, List.forall_mem_cons]
  exact and_iff_right rfl

variable (again) in
/-- The fields beside an envelope are read again exactly if they last. -/
theorem map_payloadFields_eq_iff {d : Dictionary Json} {payload : Tree} (hd : IsEnvelope d)
    (hp : IsFields payload) :
    Tree.map (payloadFields (Json.rereadMembers again (withPayload d payload))) = payload ↔
      payload.all (Tree.lasts again) = true := by
  obtain ⟨ordered, fields, rfl, own⟩ := hp
  rw [Tree.map.injEq, payloadFields_withPayload_eq_iff again hd ordered.1, and_iff_right own]

/-- A message that was read from a well-formed value is read as itself again exactly if it
lasts. -/
theorem ofJson_reread_iff {m : Message} (h : m.IsSound) :
    ofJson (m.toJson.reread again) = .ok m ↔ m.Lasts again := by
  cases h with
  | @gameState update version ordered =>
    have payload := statePayload_withPayload_eq_iff again
      (isEnvelope_envelope "UPDATE_GAMESTATE" update.version update.merges) ordered
    rw [← updateMembers_eq] at payload
    rw [toJson, Json.reread, ofJson_object_eq_ok_iff, Lasts, ← payload]
    constructor
    · rintro ⟨-, isRead⟩
      exact (updateOf_eq_ok_iff.1 isRead).2.2
    · intro same
      refine updateOf_withPayload version ordered (fun fields isMap => ?_) same
      have apart := (payload.1 same).2
      rw [isMap] at apart
      exact List.all_eq_true.1 (Bool.and_eq_true_iff.1 apart).1
  | @tournament update version fields =>
    have payload := map_payloadFields_eq_iff again
      (isEnvelope_envelope "UPDATE_TOURNAMENT_STATE" update.version update.merges) fields
    rw [← updateMembers_eq] at payload
    rw [toJson, Json.reread, ofJson_object_eq_ok_iff, Lasts, ← payload]
    constructor
    · rintro ⟨-, isRead⟩
      exact (updateOf_eq_ok_iff.1 isRead).2.2
    · exact updateOf_withPayload version fields.1 fields.own
  | chat fields | notification fields =>
    rw [toJson, Json.reread, ofJson_object_eq_ok_iff, Lasts,
      ← map_payloadFields_eq_iff again (isEnvelope_type _) fields]
    exact and_iff_right (find?_withPayload (isEnvelope_type _) fields.1 fields.own (by decide))
  | tick => exact ofJson_reread_tick_iff _
  | unrecognized unknown =>
    refine iff_of_true ?_ trivial
    rw [toJson, Json.reread, ofJson_object_eq_ok_iff]
    exact ⟨rfl, unknown⟩

theorem isReadable_withPayload (hd : ∀ e ∈ d, e.2.isReadable again = true)
    (lasts : payload.all (Tree.lasts again) = true) :
    (Json.object (withPayload d payload)).isReadable again = true := by
  have whole := Tree.isReadable_toJson payload lasts
  rw [Json.isReadable, Json.isReadableMembers_iff]
  by_cases other : ∀ fields, payload ≠ .map fields
  · rw [withPayload_of_not_map other]
    exact Dictionary.forall_insertAll (Json.isReadable again · = true) hd (by simpa using whole)
  · obtain ⟨fields, rfl⟩ : ∃ fields, payload = .map fields := by simpa using other
    rw [withPayload_map]
    exact Dictionary.forall_insertAll (Json.isReadable again · = true) hd
      (Json.isReadableMembers_iff.1 whole)

theorem isReadable_envelope (kind : String) (version : Option Int) (merges : Bool) :
    ∀ e ∈ envelope kind version merges, e.2.isReadable again = true := by
  cases version <;> cases merges <;> simp [envelope, Json.isReadable]

/-- No floating number of a message that lasts is refused. -/
theorem isReadable_toJson {m : Message} (h : m.Lasts again) :
    m.toJson.isReadable again = true := by
  have named : ∀ kind, ∀ e ∈ [("type", Json.text kind)], e.2.isReadable again = true :=
    fun kind => isReadable_envelope kind none false
  cases m with
  | gameState update =>
    rw [toJson, updateMembers_eq]
    exact isReadable_withPayload (isReadable_envelope _ _ _) h.1
  | tournament update =>
    rw [toJson, updateMembers_eq]
    exact isReadable_withPayload (isReadable_envelope _ _ _) h
  | chat payload | notification payload => exact isReadable_withPayload (named _) h
  | tick step =>
    have number : ∀ x, keeps again x = true → (Json.ofBinary64 x).isReadable again = true := by
      intro x kept
      rw [Json.ofBinary64]
      split
      · next finite =>
        rw [Json.isReadable, (keeps_iff finite).1 kept]
        rfl
      · rfl
    rw [toJson, Json.isReadable, Json.isReadableMembers_iff]
    refine Dictionary.forall_insertAll (Json.isReadable again · = true) (named _)
      fun e member => ?_
    have held : ∃ x ∈ step.time :: step.former :: step.speed.toList, e.2 = Json.ofBinary64 x := by
      cases speed : step.speed <;> simp [tickMembers, speed] at member <;> grind
    obtain ⟨x, own, spelled⟩ := held
    rw [spelled]
    exact number x (h x own)
  | unrecognized => rfl

end Message

end TableMotion
