import TableMotion.Proofs.Streams

/-!
# What a merge leaves

A merge follows its patch through maps. Where the patch has anything else, the patch wins with all
that is below (`get?_merge_of_leaf`); where the patch ends in a map, the tree before it stands as
far as it has maps there too (`get?_merge_of_gap`). A patch that is merged twice does what it does
once (`merge_merge`).
-/

namespace TableMotion

namespace Tree

/-! ## One step -/

theorem null_merge (patch : Tree) : Tree.null.merge patch = patch := by
  cases patch <;> rfl

/-- What is no map replaces what it is merged into. -/
theorem merge_of_not_map {patch : Tree} (leaf : patch.fields? = none) (t : Tree) :
    t.merge patch = patch := by
  cases patch with
  | map fields => cases leaf
  | null | bool | amount | text | list => cases t <;> rfl

/-- The fields of a map; other nodes have none. -/
def fieldsOf (t : Tree) : Dictionary Tree := t.fields?.getD []

theorem sorted_fieldsOf {t : Tree} (h : t.WellFormed) : Dictionary.Sorted t.fieldsOf := by
  cases t with
  | map fields => exact (wellFormed_map.1 h).1
  | null | bool | amount | text | list => exact Dictionary.sorted_nil

/-- What is under a key of a map, and a null if nothing is. -/
def fieldAt (t : Tree) (key : String) : Tree := (Dictionary.find? t.fieldsOf key).getD .null

theorem fieldAt_map (fields : Dictionary Tree) (key : String) :
    (Tree.map fields).fieldAt key = (Dictionary.find? fields key).getD .null := rfl

theorem wellFormed_fieldAt {t : Tree} (h : t.WellFormed) (key : String) :
    (t.fieldAt key).WellFormed := by
  cases found : Dictionary.find? t.fieldsOf key with
  | none =>
    rw [fieldAt, found]
    trivial
  | some c =>
    rw [fieldAt, found]
    cases t with
    | map fields => exact (wellFormed_map.1 h).2 _ (Dictionary.mem_of_find? found)
    | null | bool | amount | text | list => cases found

/-- What a patch brings under a key is merged into what is there. -/
theorem find?_mergeFields_of_find? {patch : Dictionary Tree} (sorted : Dictionary.Sorted patch)
    {key : String} {part : Tree} (found : Dictionary.find? patch key = some part)
    (fields : Dictionary Tree) :
    Dictionary.find? (mergeFields fields patch) key =
      some (((Tree.map fields).fieldAt key).merge part) := by
  induction patch generalizing fields with
  | nil => cases found
  | cons e rest ih =>
    obtain ⟨k, t⟩ := e
    obtain ⟨above, ordered⟩ := Dictionary.sorted_cons.1 sorted
    rw [Dictionary.find?_cons] at found
    rw [mergeFields]
    by_cases here : k = key
    · subst here
      obtain rfl : t = part := by simpa using found
      rw [find?_mergeFields (Dictionary.find?_eq_none_of_lt above), Dictionary.find?_insert_self]
      cases held : Dictionary.find? fields k with
      | none => simp [fieldAt_map, held, null_merge]
      | some old => simp [fieldAt_map, held]
    · rw [if_neg here] at found
      rw [ih ordered found, fieldAt_map, fieldAt_map, Dictionary.find?_insert_of_ne _ _ here]

/-- A map that is merged into a tree leaves a map, and goes on under its own keys only. -/
theorem exists_merge_map {patch : Dictionary Tree} (sorted : Dictionary.Sorted patch) (t : Tree) :
    ∃ fields, t.merge (.map patch) = .map fields ∧
      (Dictionary.Sorted t.fieldsOf → Dictionary.Sorted fields) ∧
      (∀ key, Dictionary.find? patch key = none →
        Dictionary.find? fields key = Dictionary.find? t.fieldsOf key) ∧
      ∀ key part, Dictionary.find? patch key = some part →
        Dictionary.find? fields key = some ((t.fieldAt key).merge part) := by
  cases t with
  | map old =>
    exact ⟨mergeFields old patch, rfl, fun ordered => sorted_mergeFields ordered patch,
      fun key absent => find?_mergeFields absent old,
      fun key part found => find?_mergeFields_of_find? sorted found old⟩
  | null | bool | amount | text | list =>
    -- the patch stands as it is, as if it were merged into nulls
    exact ⟨patch, rfl, fun _ => sorted, fun key absent => absent,
      fun key part found => found.trans (congrArg some (null_merge part).symm)⟩

/-! ## Merging twice -/

mutual

/-- A patch that is merged twice does what it does once. -/
theorem merge_merge : (patch t : Tree) → patch.WellFormed → t.WellFormed →
    (t.merge patch).merge patch = t.merge patch
  | .map patch, t, hp, ht => by
    obtain ⟨sorted, parts⟩ := wellFormed_map.1 hp
    obtain ⟨once, made, ordered, kept, merged⟩ := exists_merge_map sorted t
    obtain ⟨twice, again, orderedAgain, keptAgain, mergedAgain⟩ :=
      exists_merge_map sorted (.map once)
    have sortedOnce := ordered (sorted_fieldsOf ht)
    rw [made, again]
    refine congrArg Tree.map ((orderedAgain sortedOnce).ext sortedOnce fun key => ?_)
    cases found : Dictionary.find? patch key with
    | none => exact keptAgain key found
    | some part =>
      have first := merged key part found
      have held : (Tree.map once).fieldAt key = (t.fieldAt key).merge part := by
        rw [fieldAt_map, first, Option.getD_some]
      rw [mergedAgain key part found, held, first]
      exact congrArg some (merge_merge_fields patch parts _ (Dictionary.mem_of_find? found) _
        (wellFormed_fieldAt ht key))
  | .null, t, _, _ | .bool _, t, _, _ | .amount _, t, _, _ | .text _, t, _, _
  | .list _, t, _, _ => by
    rw [merge_of_not_map rfl, merge_of_not_map rfl]
termination_by structural patch => patch

theorem merge_merge_fields : (patch : List (String × Tree)) → (∀ e ∈ patch, e.2.WellFormed) →
    ∀ e ∈ patch, ∀ t : Tree, t.WellFormed → (t.merge e.2).merge e.2 = t.merge e.2
  | [], _, _, he, _, _ => by cases he
  | (key, part) :: rest, parts, e, he, t, ht => by
    rcases List.mem_cons.1 he with rfl | he
    · exact merge_merge part t (parts _ List.mem_cons_self) ht
    · exact merge_merge_fields rest (fun x hx => parts x (List.mem_cons_of_mem _ hx)) e he t ht
termination_by structural patch => patch

end

/-! ## Along a path -/

variable {a b : Tree} {key : String} {p q rest : Path}

/-- Every node from the root down to a path is a map. -/
def MapsTo (t : Tree) (q : Path) : Prop :=
  ∀ r : Path, r.covers q = true → ∃ fields, t.get? r = some (.map fields)

theorem mapsTo_nil : a.MapsTo [] ↔ ∃ fields, a = .map fields := by
  constructor
  · intro h
    obtain ⟨fields, here⟩ := h [] (Path.covers_self [])
    exact ⟨fields, Option.some.inj here⟩
  · rintro ⟨fields, rfl⟩ r covers
    obtain ⟨more, split⟩ := Path.covers_iff.1 covers
    obtain ⟨rfl, -⟩ := List.nil_eq_append_iff.1 split
    exact ⟨fields, rfl⟩

theorem get?_map_cons (fields : Dictionary Tree) (key : String) (p : Path) :
    (Tree.map fields).get? (key :: p) = (Dictionary.find? fields key).bind (·.get? p) :=
  get?_cons ..

theorem mapsTo_cons : a.MapsTo (key :: q) ↔
    ∃ fields c, a = .map fields ∧ Dictionary.find? fields key = some c ∧ c.MapsTo q := by
  constructor
  · intro h
    obtain ⟨fields, here⟩ := h [] (Path.covers_append [] _)
    obtain rfl := Option.some.inj here
    obtain ⟨inner, below⟩ := h [key] (Path.covers_append [key] q)
    rw [get?_map_cons] at below
    obtain ⟨c, found, -⟩ := Option.bind_eq_some_iff.1 below
    refine ⟨fields, c, rfl, found, fun r covers => ?_⟩
    obtain ⟨more, rfl⟩ := Path.covers_iff.1 covers
    have under := h (key :: r) (Path.covers_append (key :: r) more)
    rwa [get?_map_cons, found] at under
  · rintro ⟨fields, c, rfl, found, inner⟩ r covers
    cases r with
    | nil => exact ⟨fields, rfl⟩
    | cons other r =>
      obtain ⟨more, split⟩ := Path.covers_iff.1 covers
      obtain ⟨rfl, rfl⟩ := List.cons.inj split
      rw [get?_map_cons, found]
      exact inner r (Path.covers_append r more)

/-- A null where nothing is ends the maps as well. -/
theorem mapsTo_fieldAt : (a.fieldAt key).MapsTo q ↔ a.MapsTo (key :: q) := by
  constructor
  · intro h
    obtain ⟨inner, here⟩ := h [] (Path.covers_append [] q)
    have isMap : a.fieldAt key = .map inner := Option.some.inj here
    cases a with
    | map fields =>
      cases found : Dictionary.find? fields key with
      | none =>
        rw [fieldAt_map, found] at isMap
        cases isMap
      | some c =>
        rw [fieldAt_map, found] at h
        exact mapsTo_cons.2 ⟨fields, c, rfl, found, h⟩
    | null | bool | amount | text | list => cases isMap
  · intro h
    obtain ⟨fields, c, rfl, found, inner⟩ := mapsTo_cons.1 h
    rwa [fieldAt_map, found]

/-- Where a patch holds anything but a map, the patch wins, there and below. -/
theorem get?_merge_of_leaf (hb : b.WellFormed) {v : Tree} (here : b.get? q = some v)
    (leaf : v.fields? = none) : (a.merge b).get? (q ++ rest) = b.get? (q ++ rest) := by
  induction q generalizing a b with
  | nil =>
    obtain rfl := Option.some.inj here
    rw [merge_of_not_map leaf]
  | cons key q ih =>
    cases b with
    | map patch =>
      rw [get?_map_cons] at here
      obtain ⟨part, found, below⟩ := Option.bind_eq_some_iff.1 here
      obtain ⟨sorted, parts⟩ := wellFormed_map.1 hb
      obtain ⟨fields, made, -, -, merged⟩ := exists_merge_map sorted a
      have inner := parts _ (Dictionary.mem_of_find? found)
      rw [made, List.cons_append, get?_map_cons, get?_map_cons, merged key part found, found]
      exact ih inner below
    | null | bool | amount | text | list => rw [merge_of_not_map rfl]

/-- Where a patch ends in a map, the tree before it stands if it has maps down to there. -/
theorem get?_merge_of_gap (hb : b.WellFormed) (maps : b.MapsTo q)
    (gap : b.get? (q ++ [key]) = none) :
    (a.MapsTo q → (a.merge b).get? (q ++ key :: rest) = a.get? (q ++ key :: rest)) ∧
      (¬ a.MapsTo q → (a.merge b).get? (q ++ key :: rest) = none) := by
  induction q generalizing a b with
  | nil =>
    obtain ⟨patch, rfl⟩ := mapsTo_nil.1 maps
    obtain ⟨fields, made, -, kept, -⟩ := exists_merge_map (wellFormed_map.1 hb).1 a
    have absent : Dictionary.find? patch key = none := by simpa [get?, child?] using gap
    rw [mapsTo_nil, made, List.nil_append, get?_map_cons, kept key absent]
    cases a with
    | map old => exact ⟨fun _ => (get?_map_cons ..).symm, fun noMap => absurd ⟨old, rfl⟩ noMap⟩
    | null | bool | amount | text | list => exact ⟨by simp, fun _ => rfl⟩
  | cons first q ih =>
    obtain ⟨patch, part, rfl, found, inner⟩ := mapsTo_cons.1 maps
    obtain ⟨sorted, parts⟩ := wellFormed_map.1 hb
    obtain ⟨fields, made, -, -, merged⟩ := exists_merge_map sorted a
    have gapBelow : part.get? (q ++ [key]) = none := by
      rwa [List.cons_append, get?_map_cons, found] at gap
    obtain ⟨stands, falls⟩ := ih (a := a.fieldAt first) (parts _ (Dictionary.mem_of_find? found))
      inner gapBelow
    rw [made, List.cons_append, get?_map_cons, merged first part found, Option.bind_some]
    refine ⟨fun h => ?_, fun h => falls fun below => h (mapsTo_fieldAt.1 below)⟩
    rw [stands (mapsTo_fieldAt.2 h)]
    obtain ⟨old, c, rfl, held, -⟩ := mapsTo_cons.1 h
    rw [get?_map_cons, fieldAt_map, held]
    rfl

/-- On every path the last writer wins. Where the patch has anything but a map on the way, the path
leads to what the patch has. Where the path leaves the patch below maps, it leads to what was there
before if it came through maps down to there, and to nothing otherwise. A second merge changes
nothing. -/
theorem get?_merge {a b : Tree} (ha : a.WellFormed) (hb : b.WellFormed) :
    (∀ (p q : Path) (v : Tree), q.covers p = true → b.get? q = some v → v.fields? = none →
      (a.merge b).get? p = b.get? p) ∧
    (∀ (p q : Path) (key : String), (q.child key).covers p = true → b.MapsTo q →
      b.get? (q.child key) = none →
      (a.MapsTo q → (a.merge b).get? p = a.get? p) ∧
        (¬ a.MapsTo q → (a.merge b).get? p = none)) ∧
    (a.merge b).merge b = a.merge b := by
  refine ⟨fun p q v covers here leaf => ?_, fun p q key covers maps gap => ?_,
    merge_merge b a hb ha⟩
  · obtain ⟨rest, rfl⟩ := Path.covers_iff.1 covers
    exact get?_merge_of_leaf hb here leaf
  · obtain ⟨rest, rfl⟩ := Path.covers_iff.1 covers
    rw [Path.child, List.append_assoc]
    exact get?_merge_of_gap hb maps gap

/-- A stack that changes beside a name that stays, and pots that are emptied. -/
theorem get?_merge_seat :
    let a : Tree := .map [("pots", .list [.text "main"]),
      ("seat", .map [("name", .text "ada"), ("stack", .text "50")])]
    let b : Tree := .map [("pots", .list []), ("seat", .map [("stack", .text "40")])]
    (a.merge b).get? ["seat", "stack"] = some (.text "40") ∧
      (a.merge b).get? ["seat", "name"] = some (.text "ada") ∧
      (a.merge b).get? ["pots", "0"] = none ∧ (a.merge b).merge b = a.merge b := by
  intro a b
  obtain ⟨wins, stands, again⟩ :=
    get?_merge (a := a) (b := b) (by decide +kernel) (by decide +kernel)
  have seatOf (t : Tree) (fields seat : Dictionary Tree) (same : t = .map fields)
      (found : Dictionary.find? fields "seat" = some (.map seat)) : t.MapsTo ["seat"] :=
    mapsTo_cons.2 ⟨fields, _, same, found, mapsTo_nil.2 ⟨seat, rfl⟩⟩
  refine ⟨wins _ ["seat", "stack"] (.text "40") rfl rfl rfl, ?_,
    wins ["pots", "0"] ["pots"] (.list []) rfl rfl rfl, again⟩
  exact (stands ["seat", "name"] ["seat"] "name" rfl (seatOf b _ _ rfl rfl) rfl).1
    (seatOf a _ _ rfl rfl)

/-- A map inside a list of the patch is no place to go on at: the list has replaced all below it,
though the path leaves the patch below a map and the tree before had maps down to there. -/
theorem not_get?_merge_gap_in_list :
    let a : Tree := .map [("0", .map [("pot", .text "50")])]
    let b : Tree := .list [.emptyMap]
    (a.WellFormed ∧ b.WellFormed) ∧ b.get? ["0"] = some (.map []) ∧
      b.get? ["0", "pot"] = none ∧ a.MapsTo ["0"] ∧
      (a.merge b).get? ["0", "pot"] ≠ a.get? ["0", "pot"] := by
  intro a b
  refine ⟨by decide +kernel, by decide +kernel, by decide +kernel, ?_, by decide +kernel⟩
  exact mapsTo_cons.2 ⟨_, _, rfl, rfl, mapsTo_nil.2 ⟨_, rfl⟩⟩

end Tree

end TableMotion
