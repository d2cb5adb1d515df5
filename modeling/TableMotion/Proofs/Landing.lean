import TableMotion.Proofs.Arriving

/-!
# Writes that find their place

A frame skips nothing if each of its writes finds a place in the tree that the earlier ones have
made (`skipped_ofTransitions`). Whether it does depends on where maps and lists are, not on what
the amounts are (`put_mapAmounts`), so a frame in which amounts are half way skips nothing if one
in which they have arrived does (`Lands.congr`). A frame that lays out a state skips nothing if the
state has room for what is taken out (`Layout.lands`).
-/

namespace TableMotion

/-! ## Other amounts -/

namespace Tree

mutual

/-- Applies a function to every amount of a tree. -/
def mapAmounts (f : Amount → Amount) : Tree → Tree
  | .amount a => .amount (f a)
  | .list items => .list (mapAmountsItems f items)
  | .map fields => .map (mapAmountsFields f fields)
  | .null => .null
  | .bool b => .bool b
  | .text s => .text s

def mapAmountsItems (f : Amount → Amount) : List Tree → List Tree
  | [] => []
  | t :: rest => mapAmounts f t :: mapAmountsItems f rest

def mapAmountsFields (f : Amount → Amount) : List (String × Tree) → List (String × Tree)
  | [] => []
  | (key, t) :: rest => (key, mapAmounts f t) :: mapAmountsFields f rest

end

variable (f : Amount → Amount)

theorem mapAmounts_list (items : List Tree) :
    (Tree.list items).mapAmounts f = .list (items.map (mapAmounts f)) := by
  have same : mapAmountsItems f items = items.map (mapAmounts f) := by
    induction items with
    | nil => rfl
    | cons t rest ih => rw [mapAmountsItems, ih, List.map_cons]
  rw [mapAmounts, same]

theorem mapAmounts_map (fields : Dictionary Tree) :
    (Tree.map fields).mapAmounts f = .map (Dictionary.mapValues (mapAmounts f) fields) := by
  have same : mapAmountsFields f fields = Dictionary.mapValues (mapAmounts f) fields := by
    induction fields with
    | nil => rfl
    | cons e rest ih =>
      obtain ⟨key, t⟩ := e
      rw [mapAmountsFields, ih]
      rfl
  rw [mapAmounts, same]

variable (t : Tree) (key : String)

theorem child?_mapAmounts : (t.mapAmounts f).child? key = (t.child? key).map (mapAmounts f) := by
  cases t with
  | map fields =>
    rw [mapAmounts_map]
    exact Dictionary.find?_mapValues ..
  | list items =>
    rw [mapAmounts_list]
    cases named : Path.index? key <;> simp [child?, named]
  | null | bool | amount | text => rfl

theorem replaceChild_mapAmounts (value : Tree) :
    (t.mapAmounts f).replaceChild key (value.mapAmounts f) =
      (t.replaceChild key value).mapAmounts f := by
  cases t with
  | map fields =>
    simp only [mapAmounts_map, replaceChild, Dictionary.insert_mapValues]
  | list items =>
    cases named : Path.index? key <;> simp [mapAmounts_list, replaceChild, named, List.map_set]
  | null | bool | amount | text => rfl

theorem setChild_mapAmounts (value : Tree) :
    (t.mapAmounts f).setChild key (value.mapAmounts f) =
      (t.setChild key value).map (mapAmounts f) := by
  cases t with
  | map fields =>
    simp only [mapAmounts_map, setChild, Dictionary.insert_mapValues, Except.map]
  | list items =>
    cases named : Path.index? key with
    | none => simp [mapAmounts_list, setChild, named, Except.map]
    | some i =>
      simp only [mapAmounts_list, setChild, named, List.length_map]
      split
      · simp [Except.map, mapAmounts_list, List.map_set]
      · split <;> simp [Except.map, mapAmounts_list]
  | null | bool | amount | text => rfl

theorem removeChild_mapAmounts :
    (t.mapAmounts f).removeChild key =
      (t.removeChild key).map fun r => (r.1.map (mapAmounts f), r.2.mapAmounts f) := by
  cases t with
  | map fields =>
    simp only [mapAmounts_map, removeChild, Dictionary.find?_mapValues,
      Dictionary.erase_mapValues, Except.map]
  | list items =>
    cases named : Path.index? key with
    | none => simp [mapAmounts_list, removeChild, named, Except.map]
    | some i =>
      simp [mapAmounts_list, removeChild, named, Except.map, List.eraseIdx_eq_take_drop_succ,
        List.map_take, List.map_drop]
  | null | bool | amount | text => rfl

theorem write_mapAmounts (value : Tree) (p : Path) :
    write (value.mapAmounts f) p (t.mapAmounts f) = (write value p t).map (mapAmounts f) := by
  induction p generalizing t with
  | nil => rfl
  | cons key p ih =>
    cases p with
    | nil => exact setChild_mapAmounts f t key value
    | cons next p =>
      rw [write_cons, write_cons, child?_mapAmounts]
      cases t.child? key with
      | none => rfl
      | some c =>
        simp only [Option.map_some, ih c]
        cases write value (next :: p) c with
        | error e => rfl
        | ok d => exact congrArg Except.ok (replaceChild_mapAmounts f t key d)

theorem takeOut_mapAmounts (p : Path) :
    takeOut p (t.mapAmounts f) =
      (takeOut p t).map fun r => (r.1.map (mapAmounts f), r.2.mapAmounts f) := by
  induction p generalizing t with
  | nil => rfl
  | cons key p ih =>
    cases p with
    | nil => exact removeChild_mapAmounts f t key
    | cons next p =>
      rw [takeOut_cons, takeOut_cons, child?_mapAmounts]
      cases t.child? key with
      | none => rfl
      | some c =>
        simp only [Option.map_some, ih c]
        cases takeOut (next :: p) c with
        | error e => rfl
        | ok d => simp [Except.map, replaceChild_mapAmounts]

/-- Where a write goes does not depend on the amounts. -/
theorem put_mapAmounts (p : Path) (v : Option Tree) :
    (t.mapAmounts f).put p (v.map (mapAmounts f)) = (t.put p v).map (mapAmounts f) := by
  cases v with
  | some value =>
    show ((write (value.mapAmounts f) p (t.mapAmounts f)).mapError _) =
      ((write value p t).mapError _).map (mapAmounts f)
    rw [write_mapAmounts]
    cases write value p t <;> rfl
  | none =>
    show ((takeOut p (t.mapAmounts f)).mapError _).map (·.2) =
      (((takeOut p t).mapError _).map (·.2)).map (mapAmounts f)
    rw [takeOut_mapAmounts]
    cases takeOut p t <;> rfl

/-- A write that finds a place finds it in a tree with other amounts too. -/
theorem put_ok_of_mapAmounts {t u : Tree} {p : Path} {v w : Option Tree}
    (trees : t.mapAmounts f = u.mapAmounts f)
    (values : v.map (mapAmounts f) = w.map (mapAmounts f)) {t' : Tree} (made : t.put p v = .ok t') :
    ∃ u', u.put p w = .ok u' := by
  have same := put_mapAmounts f u p w
  rw [← trees, ← values, put_mapAmounts, made] at same
  cases done : u.put p w with
  | ok u' => exact ⟨u', rfl⟩
  | error e =>
    rw [done] at same
    cases same

/-! ## Writes that have room -/

theorem put_root_ok {t u : Tree} {v : Option Tree} :
    t.put Path.root v = .ok u ↔ v = some u := by
  cases v with
  | none =>
    rw [put_none_ok]
    constructor
    · rintro ⟨old, impossible⟩
      cases impossible
    · intro impossible
      cases impossible
  | some value =>
    rw [put_some_ok]
    constructor
    · intro made
      cases made
      rfl
    · rintro ⟨⟩
      rfl

theorem takeOut_concat_ok {t : Tree} {stem : Path} {key : String} :
    (∃ r, takeOut (stem ++ [key]) t = .ok r) ↔
      ∃ holder r, t.get? stem = some holder ∧ holder.removeChild key = .ok r := by
  induction stem generalizing t with
  | nil =>
    constructor
    · rintro ⟨r, done⟩
      exact ⟨t, r, rfl, done⟩
    · rintro ⟨holder, r, found, done⟩
      cases found
      exact ⟨r, done⟩
  | cons k stem ih =>
    obtain ⟨next, rest, split⟩ := List.exists_cons_of_ne_nil (List.concat_ne_nil key stem)
    rw [split] at ih
    rw [List.cons_append, split]
    constructor
    · rintro ⟨r, done⟩
      obtain ⟨c, d, under, inner, -⟩ := takeOut_cons_ok.1 done
      obtain ⟨holder, left, found, removed⟩ := ih.1 ⟨d, inner⟩
      exact ⟨holder, left, by rw [get?_cons, under]; exact found, removed⟩
    · rintro ⟨holder, left, found, removed⟩
      rw [get?_cons] at found
      obtain ⟨c, under, below⟩ := Option.bind_eq_some_iff.1 found
      obtain ⟨d, inner⟩ := ih.2 ⟨holder, left, below, removed⟩
      exact ⟨_, takeOut_cons_ok.2 ⟨c, d, under, inner, rfl⟩⟩

/-- A removal needs a map, or a list and an index, whatever they hold. -/
def Clears (s : Option Tree) (stem : Path) (key : String) : Prop :=
  faceAt s stem = some (.map []) ∨
    faceAt s stem = some (.list []) ∧ (Path.index? key).isSome = true

theorem Clears.isSome {s : Option Tree} {stem : Path} {key : String} (h : Clears s stem key) :
    (faceAt s stem).isSome = true := by
  rcases h with isMap | ⟨isList, -⟩
  · rw [isMap]
    rfl
  · rw [isList]
    rfl

theorem removeChild_ok_iff {t : Tree} {key : String} :
    (∃ r, t.removeChild key = .ok r) ↔ Clears (some t) [] key := by
  cases t with
  | list items => cases named : Path.index? key <;> simp [removeChild, Clears, face, named]
  | map | null | bool | amount | text => simp [removeChild, Clears, face]

theorem clears_iff {t : Tree} {stem : Path} {key : String} :
    (∃ u, t.put (stem ++ [key]) none = .ok u) ↔ Clears (some t) stem key := by
  have taken : (∃ u, t.put (stem ++ [key]) none = .ok u) ↔
      ∃ r, takeOut (stem ++ [key]) t = .ok r := by
    simp only [put_none_ok]
    exact ⟨fun ⟨u, old, done⟩ => ⟨_, done⟩, fun ⟨r, done⟩ => ⟨r.2, r.1, done⟩⟩
  rw [taken, takeOut_concat_ok]
  have here : ∀ holder, t.get? stem = some holder →
      (Clears (some t) stem key ↔ Clears (some holder) [] key) := by
    intro holder found
    have face : faceAt (some t) stem = faceAt (some holder) [] := by
      rw [faceAt_root, faceAt, Option.bind_some, found, Option.map_some]
    rw [Clears, face, Clears]
  constructor
  · rintro ⟨holder, r, found, removed⟩
    exact (here holder found).2 (removeChild_ok_iff.1 ⟨r, removed⟩)
  · intro clears
    cases found : t.get? stem with
    | none =>
      have nothing : faceAt (some t) stem = none := by simp [faceAt, found]
      rw [Clears, nothing] at clears
      rcases clears with impossible | ⟨impossible, -⟩ <;> cases impossible
    | some holder =>
      obtain ⟨r, removed⟩ := removeChild_ok_iff.2 ((here holder found).1 clears)
      exact ⟨holder, r, rfl, removed⟩

end Tree

/-! ## Runs of writes that all find their places -/

namespace Schedule

open TableMotion.Tree

variable {value other : Transition → Option Tree}

theorem putBelow_mapAmounts (f : Amount → Amount) (s : Option Tree) (p : Path) (v : Option Tree) :
    putBelow (s.map (mapAmounts f)) p (v.map (mapAmounts f)) =
      (putBelow s p v).map (mapAmounts f) := by
  cases p with
  | nil => rw [putBelow_root, putBelow_root]
  | cons key p =>
    cases s with
    | none => rfl
    | some t =>
      rw [Option.map_some, putBelow_some, putBelow_some, put_mapAmounts]
      cases t.put (key :: p) v <;> rfl

/-- A write finds its place: it replaces the whole tree, or it can be made in the tree. -/
def HasPlace (s : Option Tree) (p : Path) (v : Option Tree) : Prop :=
  p = Path.root ∨ ∃ t u, s = some t ∧ t.put p v = .ok u

theorem hasPlace_of_takes {s v : Option Tree} {stem : Path} {key : String}
    (takes : Takes s stem key) (present : v ≠ none) : HasPlace s (stem ++ [key]) v := by
  obtain ⟨value, rfl⟩ := Option.ne_none_iff_exists'.1 present
  cases s with
  | none => rcases takes with impossible | ⟨impossible, -⟩ <;> cases impossible
  | some t =>
    obtain ⟨u, made⟩ := takes.put value
    exact Or.inr ⟨t, u, rfl, made⟩

theorem hasPlace_of_clears {s : Option Tree} {stem : Path} {key : String}
    (clears : Clears s stem key) : HasPlace s (stem ++ [key]) none := by
  cases s with
  | none => rcases clears with impossible | ⟨impossible, -⟩ <;> cases impossible
  | some t =>
    obtain ⟨u, made⟩ := clears_iff.2 clears
    exact Or.inr ⟨t, u, rfl, made⟩

/-- Each write finds its place in what the earlier ones have made. -/
def Lands (value : Transition → Option Tree) : Option Tree → List Transition → Prop
  | _, [] => True
  | s, r :: rs => HasPlace s r.path (value r) ∧ Lands value (putBelow s r.path (value r)) rs

theorem lands_append {s : Option Tree} {rs ss : List Transition} :
    Lands value s (rs ++ ss) ↔ Lands value s rs ∧ Lands value (writeAll value s rs) ss := by
  induction rs generalizing s with
  | nil => simp [Lands]
  | cons r rs ih => simp [Lands, ih, and_assoc]

theorem lands_of_split {s : Option Tree} {rs : List Transition}
    (place : ∀ done g todo, rs = done ++ g :: todo →
      HasPlace (writeAll value s done) g.path (value g)) : Lands value s rs := by
  induction rs generalizing s with
  | nil => trivial
  | cons r rs ih =>
    refine ⟨place [] r rs rfl, ih fun done g todo split => ?_⟩
    rw [← writeAll_cons]
    exact place (r :: done) g todo (congrArg (r :: ·) split)

theorem HasPlace.congr {f : Amount → Amount} {s u v w : Option Tree} {p : Path}
    (trees : s.map (mapAmounts f) = u.map (mapAmounts f))
    (values : v.map (mapAmounts f) = w.map (mapAmounts f)) (h : HasPlace s p v) :
    HasPlace u p w := by
  rcases h with atRoot | ⟨t, t', rfl, made⟩
  · exact Or.inl atRoot
  · obtain ⟨t₂, rfl, sameTree⟩ := Option.map_eq_some_iff.1 trees.symm
    obtain ⟨u', done⟩ := put_ok_of_mapAmounts f sameTree.symm values made
    exact Or.inr ⟨t₂, u', rfl, done⟩

/-- Whether writes find their places does not depend on the amounts. -/
theorem Lands.congr {f : Amount → Amount} {rs : List Transition}
    (values : ∀ r ∈ rs, (value r).map (mapAmounts f) = (other r).map (mapAmounts f))
    {s u : Option Tree} (trees : s.map (mapAmounts f) = u.map (mapAmounts f))
    (h : Lands value s rs) : Lands other u rs := by
  induction rs generalizing s u with
  | nil => trivial
  | cons r rs ih =>
    obtain ⟨place, rest⟩ := h
    have sameValue := values r List.mem_cons_self
    have others := fun x hx => values x (List.mem_cons_of_mem r hx)
    refine ⟨place.congr trees sameValue, ih others ?_ rest⟩
    rw [← putBelow_mapAmounts, ← putBelow_mapAmounts, trees, sameValue]

/-- Writes of what a tree has already all find their places and leave the tree alone. -/
theorem lands_of_put_self {t : Tree} {rs : List Transition}
    (same : ∀ r ∈ rs, t.put r.path (value r) = .ok t) :
    Lands value (some t) rs ∧ writeAll value (some t) rs = some t := by
  induction rs with
  | nil => exact ⟨trivial, rfl⟩
  | cons r rs ih =>
    have here := same r List.mem_cons_self
    obtain ⟨rest, made⟩ := ih fun x hx => same x (List.mem_cons_of_mem r hx)
    have unchanged := putBelow_of_put here
    constructor
    · refine ⟨Or.inr ⟨t, t, rfl, here⟩, ?_⟩
      rwa [unchanged]
    · rwa [writeAll_cons, unchanged]

end Schedule

/-! ## Frames that skip nothing -/

namespace Frame

open TableMotion.Tree Schedule

variable {time : Binary64}

theorem draw_skipped (s : Frame × List Path) {r : Transition}
    (place : isWrite s.1.time r = true → HasPlace s.1.root r.path (r.valueAt s.1.time)) :
    (draw s r).1.skipped = s.1.skipped := by
  obtain ⟨f, removals⟩ := s
  simp only [draw]
  split
  · rfl
  · rename_i below
    split
    · rfl
    · rename_i value nothing
      have write : isWrite f.time r = true := by simp [isWrite, value]
      rcases place write with atRoot | ⟨t, u, there, -⟩
      · exact absurd atRoot below
      · rw [nothing] at there
        cases there
    · rename_i v t value there
      have write : isWrite f.time r = true := by simp [isWrite, value]
      rcases place write with atRoot | ⟨t', u, there', made⟩
      · exact absurd atRoot below
      · rw [there] at there'
        cases there'
        rw [value] at made
        have set : t.set r.path v = .ok u := made
        rw [set]

theorem foldl_draw_skipped {rs : List Transition} {s : Frame × List Path}
    (lands : Lands (·.valueAt s.1.time) s.1.root (rs.filter (isWrite s.1.time))) :
    (rs.foldl draw s).1.skipped = s.1.skipped := by
  induction rs generalizing s with
  | nil => rfl
  | cons r rs ih =>
    rw [List.foldl_cons]
    rcases draw_spec s r with ⟨write, -, made⟩ | ⟨put, -, same⟩
    · rw [List.filter_cons_of_pos write] at lands
      rw [ih (by rw [draw_time, made]; exact lands.2), draw_skipped s fun _ => lands.1]
    · rw [List.filter_cons_of_neg (by simp [put])] at lands
      rw [ih (by rw [draw_time, same]; exact lands),
        draw_skipped s fun write => by rw [put] at write; cases write]

theorem clear_skipped {f : Frame} {p : Path} (below : p ≠ Path.root)
    (place : HasPlace f.root p none) : (f.clear p).skipped = f.skipped := by
  rcases place with atRoot | ⟨t, u, there, made⟩
  · exact absurd atRoot below
  · unfold clear
    rw [there]
    cases done : t.remove p with
    | ok r => simp only [done]
    | error e => simp [Tree.put, done, Except.map] at made

theorem foldl_clear_skipped {rs : List Transition} (removals : ∀ r ∈ rs, isWrite time r = false)
    {f : Frame} (lands : Lands (·.valueAt time) f.root rs) :
    ((rs.map (·.path)).foldl clear f).skipped = f.skipped := by
  induction rs generalizing f with
  | nil => rfl
  | cons r rs ih =>
    obtain ⟨place, rest⟩ := lands
    have removal := removals r List.mem_cons_self
    simp only [isWrite, Bool.or_eq_false_iff, decide_eq_false_iff_not, Option.isSome_eq_false_iff,
      Option.isNone_iff_eq_none] at removal
    simp only [removal.2] at place rest
    rw [List.map_cons, List.foldl_cons,
      ih (fun x hx => removals x (List.mem_cons_of_mem r hx)) (by rwa [clear_root f removal.1]),
      clear_skipped removal.1 place]

/-- A frame whose writes all find their places skips nothing. -/
theorem skipped_ofTransitions {rs : List Transition}
    (lands : Lands (·.valueAt time) none (inWriteOrder time (shown time rs))) :
    (ofTransitions rs time).skipped = [] := by
  obtain ⟨writes, removals⟩ := lands_append.1 lands
  have spec := foldl_draw_spec (shown time rs) (empty time, [])
  have drawn := foldl_draw_skipped (s := (empty time, [])) writes
  have split : (ofTransitions rs time).skipped =
      (((shown time rs).foldl draw (empty time, [])).2.foldl clear
        ((shown time rs).foldl draw (empty time, [])).1).skipped := rfl
  rw [split, spec.2, List.append_nil, ← List.map_reverse, foldl_clear_skipped, drawn]
  · rfl
  · intro r hr
    exact Bool.not_eq_true' _ ▸ (List.mem_filter.1 (List.mem_reverse.1 hr)).2
  · rw [spec.1]
    exact removals

/-! ## A state that is laid out -/

variable {ws : List Transition} {state : Tree}

/-- Among paths in order the root is the first. -/
theorem PathOrdered.root_first (ordered : PathOrdered ws) {b : Transition} (hb : b ∈ ws)
    (atRoot : b.path = Path.root) : ∃ rest, ws = b :: rest := by
  cases ordered with
  | nil => cases hb
  | @cons w rest before _ =>
    rcases List.mem_cons.1 hb with rfl | hb
    · exact ⟨rest, rfl⟩
    · have first := before b hb
      cases path : w.path with
      | nil =>
        rw [path, atRoot] at first
        exact absurd first (Path.Before.irrefl _)
      | cons key p =>
        have above : b.path.isAbove w.path = true := by
          rw [atRoot, path]
          exact Path.isAbove_iff.2 ⟨key, p, rfl⟩
        exact absurd first (Path.before_of_isAbove above).asymm

/-- What draws nothing but parts of a tree, the tree itself first, finds all places and gives the
tree. -/
theorem lands_inWriteOrder_of_put_self {value : Transition → Option Tree}
    (ordered : PathOrdered ws) (root : ∃ b ∈ ws, b.path = Path.root)
    (same : ∀ r ∈ ws, state.put r.path (value r) = .ok state) :
    Lands value none (inWriteOrder time ws) ∧
      writeAll value none (inWriteOrder time ws) = some state := by
  obtain ⟨b, hb, atRoot⟩ := root
  obtain ⟨rest, rfl⟩ := ordered.root_first hb atRoot
  have write : isWrite time b = true := by simp [isWrite, atRoot]
  have first : inWriteOrder time (b :: rest) = b :: inWriteOrder time rest := by
    simp [inWriteOrder, write]
  have drawn : value b = some state := put_root_ok.1 (atRoot ▸ same b hb)
  have others := lands_of_put_self fun r hr =>
    same r (List.mem_cons_of_mem b ((inWriteOrder_perm time rest).mem_iff.1 hr))
  have whole : putBelow none b.path (value b) = some state := by
    rw [atRoot, show putBelow none Path.root (value b) = value b from putBelow_root .., drawn]
  rw [first, writeAll_cons, whole]
  refine ⟨⟨Or.inl atRoot, ?_⟩, others.2⟩
  rw [whole]
  exact others.1

/-- What lays out a state finds all places, if the state itself has room for what is taken out. -/
theorem Layout.lands (h : Layout ws state) (values : ∀ r ∈ ws, r.valueAt time = r.finish)
    (room : ∀ r ∈ ws, r.finish = none → ∃ u, state.put r.path none = .ok u) :
    Lands (·.finish) none (inWriteOrder time ws) := by
  refine lands_append.2 ⟨lands_of_split ?_, lands_of_split ?_⟩
  · intro done g todo split
    have member : g ∈ ws.filter (isWrite time) := by
      rw [split]
      exact List.mem_append_right done List.mem_cons_self
    obtain ⟨hg, write⟩ := List.mem_filter.1 member
    have finish := h.finish_of_isWrite hg (values g hg) write
    rcases List.eq_nil_or_concat g.path with atRoot | ⟨stem, key, path⟩
    · exact Or.inl atRoot
    · rw [List.concat_eq_append] at path
      have takes := h.takes split values (h.faceAt_writes values split) path finish
      rw [path]
      exact hasPlace_of_takes takes finish
  · intro done g todo split
    have member : g ∈ removals time ws := by
      rw [removals, split]
      exact List.mem_append_right done List.mem_cons_self
    obtain ⟨hg, removal⟩ := mem_removals.1 member
    obtain ⟨finish, -⟩ := h.finish_of_not_isWrite hg (values g hg) removal
    obtain ⟨u, put⟩ := room g hg finish
    rcases List.eq_nil_or_concat g.path with atRoot | ⟨stem, key, path⟩
    · exact Or.inl atRoot
    · rw [List.concat_eq_append] at path
      rw [path] at put
      have clears := clears_iff.1 ⟨u, put⟩
      obtain ⟨r, owns⟩ := h.owner stem
      have there := clears.isSome
      have write := isWrite_of_finish (values r owns.1) (owns.isSome_finish there)
      have face := h.faceAt_cleared values split stem r (near_of_isSome there) owns (Or.inl write)
      rw [path, finish]
      apply hasPlace_of_clears
      rwa [Clears, face]

end Frame

end TableMotion
