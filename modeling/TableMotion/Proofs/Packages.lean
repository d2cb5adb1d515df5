import TableMotion.Recording.Text
import TableMotion.Proofs.Documents

/-!
# What a JSON package does

Recordings are written and read by a package. What is relied on is that the values in a document
come back, up to their floating numbers, if they are nested no deeper than the document leaves room
for (`JsonPackage.Lawful`). The package that runs here does that (`lawful_standard`): its records and
lists are read from the wide layout as arrays and objects are.
-/

namespace TableMotion

/-! ## What is relied on -/

/-- What an entry of a document is read as, if it is read. The document opens three levels around
it. -/
def Recording.entryAgain? (again : FiniteBinary64 → Option FiniteBinary64)
    (decode : Json → Except WireError Message) (e : Nat × Json) : Option Entry :=
  (e.2.reread? again (Json.nestingLimit - 3)).bind fun v => (decode v).toOption.map (Entry.mk e.1)

/-- What is relied on. The document of numbered values is read as the entries that they are decoded
as, and not read if one of them is too deep, holds a number that is refused or is no message. A
floating number is read as `again` tells. -/
structure JsonPackage.Lawful (package : JsonPackage)
    (again : FiniteBinary64 → Option FiniteBinary64) : Prop where
  read_write : ∀ (decode : Json → Except WireError Message) (entries : List (Nat × Json)),
    (∀ e ∈ entries, e.1 < 0x10000000000000000 ∧ e.2.WellFormed) →
      (package.read decode (package.write (Recording.document entries))).toOption =
        (entries.mapM (Recording.entryAgain? again decode)).map Recording.mk

/-! ## Records and lists in the wide layout -/

namespace Json.Reader

variable {α β σ : Type} {rest : List Char}

@[simp] theorem refuse_apply (message : String) (cs : List Char) :
    (refuse message : Reader α) cs = .error (.unsuitable (Text.withoutPosition message)) := rfl

@[simp] theorem opened_succ (depth : Nat) : opened (depth + 1) = pure depth := rfl

/-- A natural number is read as itself. -/
theorem natural_wideChars {n : Nat} (small : n < 0x10000000000000000) (k : Nat)
    (ends : EndsNumber rest) :
    natural (' ' :: (wideChars k (.integer n) ++ rest)) = .ok (n, rest) := by
  have range : -0x8000000000000000 ≤ (n : Int) ∧ (n : Int) < 0x10000000000000000 := by omega
  have read := number_integerChars range ends
  obtain ⟨c, more, spelled, opens⟩ := opens_of_number read
  have notArray : c ≠ '[' := fun bracket => opens.other (by simp [bracket])
  have notObject : c ≠ '{' := fun brace => opens.other (by simp [brace])
  have whole : valueWith none (c :: more) = .ok (.integer n, rest) := by
    rw [valueWith_of_opens opens, ← spelled, read]
  have found : scalar (' ' :: c :: more) = .ok (.integer n, rest) := by
    have stays : (' ' :: c :: more).dropWhile isBlank = c :: more := by
      simp [opens.dark, show isBlank ' ' = true from rfl]
    simp [scalar, stays, notArray, notObject, whole]
  rw [wideChars, spelled]
  simp [natural, found]

theorem sequence_map (write : β → Json) (blanks : List Char) (body : Json → List Char)
    (closing : List Char) (xs : List β) :
    sequence blanks body closing (xs.map write) =
      sequence blanks (fun x => body (write x)) closing xs := by
  have others : ∀ xs : List β, following blanks body closing (xs.map write) =
      following blanks (fun x => body (write x)) closing xs := by
    intro xs
    induction xs with
    | nil => rfl
    | cons x xs ih => simp [following, ih]
  cases xs with
  | nil => rfl
  | cons x xs => simp [sequence, others]

/-- Items that are put in front of one another stand in reverse order. -/
theorem foldlM_cons (taken : β → Except Fault α) (xs : List β) (found : List α) :
    xs.foldlM (fun found x => (taken x).map (· :: found)) found =
      (xs.mapM taken).map fun ys => ys.reverse ++ found := by
  induction xs generalizing found with
  | nil => simp
  | cons x xs ih =>
    simp only [List.foldlM_cons, List.mapM_cons, except_bind, except_pure]
    cases taken x with
    | error e => rfl
    | ok y =>
      simp only [except_map_ok, except_bind_ok, ih]
      cases xs.mapM taken <;> simp

/-- The items of a list are read one after another. -/
theorem list_wideChars {d : Nat} {item : Nat → Reader α} {write : β → Json}
    {taken : β → Except Fault α} {xs : List β} (k : Nat)
    (takes : ∀ x ∈ xs, ∀ tail, OpensItem (wideChars (k + 1) (write x) ++ tail) ∧
      item d (wideChars (k + 1) (write x) ++ tail) = (taken x).map fun y => (y, tail)) :
    list (d + 1) item (' ' :: (wideChars k (.array (xs.map write)) ++ rest)) =
      (xs.mapM taken).map fun ys => (ys, rest) := by
  obtain ⟨closing, close, ends, spelled⟩ := wideChars_array k (xs.map write) rest
  have items : TakesItems (fun found => return (← item d) :: found)
      (fun x => wideChars (k + 1) (write x))
      (fun x found => (taken x).map (· :: found)) xs := by
    intro x member tail ends
    obtain ⟨opens, read⟩ := takes x member tail
    refine ⟨opens, fun found => ?_⟩
    simp only [bind_apply, read]
    cases taken x <;> rfl
  have read := array_sequence (all_isBlank_lineBreak (k + 1)) close ends items []
  simp only [bind_pure_comp] at read
  rw [spelled, sequence_map, list]
  simp [isBlank, read, foldlM_cons]
  cases xs.mapM taken <;> simp

/-- What becomes of a record by a member that it knows. -/
def placed (fields : List (FieldReader σ)) (effect : String × Json → σ → Except Fault σ)
    (m : String × Json) (s : σ) : Except Fault σ :=
  match fields.find? (·.name = m.1) with
  | some field =>
    if field.isSet s then
      .error (.unsuitable (Text.withoutPosition ("duplicate field `" ++ m.1 ++ "`")))
    else effect m s
  | none => .ok s

/-- A record knows each of the members and takes the value behind it. -/
def TakesFields (fields : List (FieldReader σ)) (d : Nat)
    (effect : String × Json → σ → Except Fault σ) (k : Nat) (members : List (String × Json)) :
    Prop :=
  ∀ m ∈ members, ∃ field, fields.find? (·.name = m.1) = some field ∧
    ∀ tail, EndsNumber tail → ∀ s, field.read d s (' ' :: (wideChars (k + 1) m.2 ++ tail)) =
      (effect m s).map fun s' => (s', tail)

/-- The members of a record are placed one after another, and then none may be missing. -/
theorem record_wideChars {d k : Nat} {fields : List (FieldReader σ)}
    {effect : String × Json → σ → Except Fault σ} {members : List (String × Json)}
    (takes : TakesFields fields d effect k members)
    (expected : String) (init : σ) :
    record (d + 1) expected fields init (wideChars k (.object members) ++ rest) =
      (members.foldlM (fun s m => placed fields effect m s) init).bind fun s =>
        match fields.find? (fun field => field.inObject && !field.isSet s) with
        | some field => refuse ("missing field `" ++ field.name ++ "`") rest
        | none => .ok (s, rest) := by
  obtain ⟨closing, close, ends, spelled⟩ := wideChars_object k members rest
  have placing : TakesMembers (memberOf fields d) Prod.fst (wideMember (k + 1))
      (placed fields effect) members := by
    intro m member tail ends s
    obtain ⟨field, known, takes⟩ := takes m member
    simp only [memberOf, placed, known, wideMember]
    by_cases set : field.isSet s = true
    · simp [set]
    · simp [set, separator_cons, isBlank, takes tail ends]
  have read := object_sequence (all_isBlank_lineBreak (k + 1)) close ends placing init
  rw [spelled, record]
  simp [isBlank, read]
  cases members.foldlM (fun s m => placed fields effect m s) init with
  | error e => rfl
  | ok s =>
    cases missing : fields.find? fun field => field.inObject && !field.isSet s <;>
      simp [missing]

end Json.Reader

/-! ## The package that runs here -/

namespace JsonPackage

open Json.Reader

variable {decode : Json → Except WireError Message}

/-- What a value is decoded as inside a document that leaves room for a depth. -/
def decoded (decode : Json → Except WireError Message) (d : Nat) (v : Json) :
    Except Json.Fault Message :=
  match v.reread? again? d with
  | some w => (decode w).mapError fun e => .unsuitable (Text.withoutPosition e.message)
  | none => .error .malformed

/-- What an entry is decoded as. -/
def entryDecoded (decode : Json → Except WireError Message) (d : Nat) (e : Nat × Json) :
    Except Json.Fault Entry :=
  (decoded decode d e.2).map (Entry.mk e.1)

theorem messageReader_wideChars {d : Nat} {v : Json} (hv : v.WellFormed) (k : Nat)
    {rest : List Char} (ends : EndsNumber rest) :
    messageReader decode d (' ' :: (Json.wideChars k v ++ rest)) =
      (decoded decode d v).map fun found => (found, rest) := by
  rw [messageReader, bind_apply, value_blank, value_wideChars hv k ends, decoded]
  cases v.reread? again? d with
  | none => rfl
  | some w => cases read : decode w <;> simp [read, Except.mapError]

/-- The value of an entry. -/
def entryJson (e : Nat × Json) : Json := .object [("seq", .integer e.1), ("message", e.2)]

/-- What becomes of an entry that is being read by a member of `e`. -/
def drafted (decode : Json → Except WireError Message) (d : Nat) (e : Nat × Json)
    (m : String × Json) (draft : EntryDraft) : Except Json.Fault EntryDraft :=
  if m.1 = "seq" then .ok { draft with seq := some e.1 }
  else (decoded decode d e.2).map fun message => { draft with message := some message }

theorem entryReader_wideChars {d : Nat} {e : Nat × Json} (small : e.1 < 0x10000000000000000)
    (hv : e.2.WellFormed) (k : Nat) (rest : List Char) :
    entryReader decode (d + 1) (Json.wideChars k (entryJson e) ++ rest) =
      (entryDecoded decode d e).map fun found => (found, rest) := by
  have takes : TakesFields (entryFields decode) d (drafted decode d e) k
      [("seq", .integer e.1), ("message", e.2)] := by
    intro m member
    simp only [List.mem_cons, List.not_mem_nil, or_false] at member
    rcases member with rfl | rfl
    · refine ⟨_, rfl, fun tail ends draft => ?_⟩
      simp [natural_wideChars small _ ends, drafted]
    · refine ⟨_, rfl, fun tail ends draft => ?_⟩
      cases found : decoded decode d e.2 <;>
        simp [messageReader_wideChars hv _ ends, drafted, found]
  have first : placed (entryFields decode) (drafted decode d e) ("seq", .integer e.1)
      ⟨none, none⟩ = .ok ⟨some e.1, none⟩ := rfl
  have second : placed (entryFields decode) (drafted decode d e) ("message", e.2)
      ⟨some e.1, none⟩ =
        (decoded decode d e.2).map fun message => ⟨some e.1, some message⟩ := rfl
  rw [entryReader, entryJson, bind_apply, record_wideChars takes]
  simp only [List.foldlM_cons, List.foldlM_nil, first, second, entryDecoded, except_bind,
    except_bind_ok]
  cases decoded decode d e.2 with
  | error fault => rfl
  | ok message => rfl

theorem reader_wideChars {entries : List (Nat × Json)}
    (h : ∀ e ∈ entries, e.1 < 0x10000000000000000 ∧ e.2.WellFormed) :
    reader decode (Json.wideChars 0 (Recording.document entries)) =
      ((entries.mapM (entryDecoded decode 124)).map Recording.mk).map fun found => (found, []) := by
  -- of the 127 levels the document takes one, its list another and each entry a third
  have listed : ∀ k rest, Json.Reader.list 126 (entryReader decode)
      (' ' :: (Json.wideChars k (.array (entries.map entryJson)) ++ rest)) =
        (entries.mapM (entryDecoded decode 124)).map fun found => (found, rest) := by
    intro k rest
    refine list_wideChars k fun e member tail => ?_
    obtain ⟨small, hv⟩ := h e member
    refine ⟨?_, entryReader_wideChars small hv (k + 1) tail⟩
    obtain ⟨closing, -, -, spelled⟩ := wideChars_object (k + 1)
      [("seq", .integer e.1), ("message", e.2)] tail
    exact ⟨'{', _, spelled, by decide, by decide⟩
  have takes : TakesFields (fields decode) 126
      (fun _ _ => (entries.mapM (entryDecoded decode 124)).map some) 0
      [("entries", .array (entries.map entryJson))] := by
    intro m member
    obtain rfl := List.mem_singleton.1 member
    refine ⟨_, rfl, fun tail _ _ => ?_⟩
    simp only [bind_apply, listed]
    cases entries.mapM (entryDecoded decode 124) <;> rfl
  have whole : Json.wideChars 0 (Recording.document entries) = Json.wideChars 0
      (.object [("entries", .array (entries.map entryJson))]) ++ [] := (List.append_nil _).symm
  rw [reader, bind_apply, whole, Json.nestingLimit, record_wideChars takes]
  cases entries.mapM (entryDecoded decode 124) with
  | error fault => rfl
  | ok found => rfl

theorem toOption_mapM {α β ε : Type} (f : α → Except ε β) (xs : List α) :
    (xs.mapM f).toOption = xs.mapM fun x => (f x).toOption := by
  induction xs with
  | nil => rfl
  | cons x xs ih =>
    rw [List.mapM_cons, List.mapM_cons, ← ih]
    cases f x with
    | error e => rfl
    | ok y => cases xs.mapM f <;> rfl

theorem toOption_entryDecoded (decode : Json → Except WireError Message) (e : Nat × Json) :
    (entryDecoded decode 124 e).toOption = Recording.entryAgain? again? decode e := by
  rw [entryDecoded, decoded, Recording.entryAgain?, Json.nestingLimit]
  cases e.2.reread? again? 124 with
  | none => rfl
  | some v => cases read : decode v <;> simp [read, Except.mapError, Except.toOption]

/-- The package that runs here does what is relied on. -/
theorem lawful_standard : standard.Lawful again? where
  read_write := by
    intro decode entries h
    have read := @reader_wideChars decode entries h
    have each := toOption_mapM (entryDecoded decode 124) entries
    simp only [toOption_entryDecoded] at each
    rw [← each]
    simp only [standard, Json.readText, Json.wide, String.toList_ofList, read]
    cases entries.mapM (entryDecoded decode 124) <;> rfl

end JsonPackage

end TableMotion
