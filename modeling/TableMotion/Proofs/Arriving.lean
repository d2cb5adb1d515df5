import TableMotion.Proofs.Drawing
import TableMotion.Proofs.Losing

/-!
# The frame that a state arrives at

Once all transitions of a schedule that carries a state are over, the frame is the state, lists
included (`Carries.root_ofTransitions`). The values go from above and from lower to higher items, so
each finds its place (`Layout.faceAt_writes`); the removals go from below and from higher to lower
items, so none of them moves anything that is shown (`Layout.faceAt_removals`).
-/

namespace TableMotion

namespace Tree

/-! ## Places for values -/

/-- A place takes a value: it is in a map, or in a list that reaches up to it. -/
def Takes (s : Option Tree) (stem : Path) (key : String) : Prop :=
  faceAt s stem = some (.map []) ∨
    faceAt s stem = some (.list []) ∧ ∃ i, Path.index? key = some i ∧
      ∀ j, j < i → (faceAt s (stem ++ [Path.indexKey j])).isSome = true

theorem Takes.put {t : Tree} {stem : Path} {key : String} (takes : Takes (some t) stem key)
    (value : Tree) : ∃ u, t.put (stem ++ [key]) (some value) = .ok u := by
  suffices room : ∃ d, t.get? stem = some d ∧ d.Admits key by
    obtain ⟨u, written⟩ := exists_write_iff.2 room
    exact ⟨u, put_some_ok.2 written⟩
  rcases takes with isMap | ⟨isList, i, named, filled⟩
  · obtain ⟨node, found, isMapNode⟩ := Option.map_eq_some_iff.1 isMap
    obtain ⟨fields, rfl⟩ := face_eq_map.1 isMapNode
    exact ⟨_, found, trivial⟩
  · obtain ⟨node, found, isListNode⟩ := Option.map_eq_some_iff.1 isList
    obtain ⟨items, rfl⟩ := face_eq_list.1 isListNode
    refine ⟨_, found, i, named, ?_⟩
    -- an item past the end would leave the index of the length empty
    by_contra short
    have present := filled items.length (by omega)
    have address : items.length < 0x10000000000000000 :=
      Nat.lt_trans (by omega) (Path.eq_indexKey_of_index? named).2
    rw [faceAt_append, found, faceAt_cons, child?_indexKey items address] at present
    simp at present

/-- Where something stands, its place takes a value. -/
theorem takes_of_present {s : Option Tree} {stem : Path} {key : String}
    (present : (faceAt s (stem ++ [key])).isSome = true) : Takes s stem key := by
  rw [faceAt_append] at present
  cases found : s.bind (·.get? stem) with
  | none => simp [found] at present
  | some node =>
    rw [found, faceAt_cons] at present
    have face : faceAt s stem = some node.face := by simp [faceAt, found]
    cases node with
    | map fields => exact Or.inl face
    | list items =>
      cases named : Path.index? key with
      | none => simp [child?, named] at present
      | some i =>
        refine Or.inr ⟨face, i, named, fun j less => ?_⟩
        have inside : Path.index? (Path.indexKey j) = some j :=
          Path.index?_indexKey (Nat.lt_trans less (Path.eq_indexKey_of_index? named).2)
        refine isSome_of_behind ⟨_, key, j, i, rfl, rfl, inside, named, less⟩ face ?_
        rw [faceAt_append, found, faceAt_cons]
        exact present
    | null | bool | amount | text => simp [child?] at present

/-- Above what stands somewhere, something stands. -/
theorem isSome_of_covers {s : Option Tree} {p q : Path} (above : p.covers q = true)
    (present : (faceAt s q).isSome = true) : (faceAt s p).isSome = true := by
  obtain ⟨rest, rfl⟩ := Path.covers_iff.1 above
  cases there : faceAt s p with
  | some f => rfl
  | none =>
    rw [faceAt_append_eq_none there] at present
    cases present

end Tree

namespace Frame

open TableMotion.Tree Transition Schedule

variable {ws : List Transition} {state : Tree} {time : Binary64}

/-! ## Transitions that own places -/

/-- A transition owns a place: it is the deepest that covers the place, and puts there what the
state has. -/
def Owns (ws : List Transition) (state : Tree) (r : Transition) (x : Path) : Prop :=
  r ∈ ws ∧ (∃ q, x = r.path ++ q ∧ faceAt (some state) x = faceAt r.finish q) ∧
    ∀ w ∈ ws, w.path.covers x = true → w.path.covers r.path = true

/-- The shown transitions lay out a state: each place has an owner. -/
structure Layout (ws : List Transition) (state : Tree) : Prop where
  ordered : PathOrdered ws
  regular : ∀ r ∈ ws, RegularSlot r.finish
  stateRegular : state.Regular
  owner : ∀ x, ∃ r, Owns ws state r x

theorem Owns.covers {r : Transition} {x : Path} (h : Owns ws state r x) :
    r.path.covers x = true := by
  obtain ⟨-, ⟨q, rfl, -⟩, -⟩ := h
  exact Path.covers_append ..

/-- What owns a place where something stands is no removal. -/
theorem Owns.isSome_finish {r : Transition} {x : Path} (h : Owns ws state r x)
    (present : (faceAt (some state) x).isSome = true) : r.finish ≠ none := by
  intro removal
  obtain ⟨-, ⟨q, rfl, there⟩, -⟩ := h
  rw [there, removal] at present
  cases present

/-- A shown transition owns its own place. -/
theorem Layout.owns_path (h : Layout ws state) {g : Transition} (hg : g ∈ ws) :
    faceAt (some state) g.path = faceAt g.finish [] := by
  obtain ⟨r, hr, ⟨q, split, there⟩, deepest⟩ := h.owner g.path
  have below := deepest g hg (Path.covers_self g.path)
  have above : r.path.covers g.path = true := Path.covers_iff.2 ⟨q, split⟩
  have same : r.path = g.path := Path.covers_antisymm above below
  obtain rfl := h.ordered.eq_of_path hr hg same
  have nil : q = [] := by simpa using split
  rw [there, nil]

/-- What covers a place and is not its owner lies above the owner. -/
theorem Owns.isAbove {r g : Transition} {x : Path} (h : Owns ws state r x)
    (ordered : PathOrdered ws) (hg : g ∈ ws) (covers : g.path.covers x = true)
    (different : g ≠ r) : g.path.isAbove r.path = true := by
  rcases Path.covers_iff_eq_or_isAbove.1 (h.2.2 g hg covers) with same | above
  · exact absurd (ordered.eq_of_path hg h.1 same) different
  · exact above

theorem Layout.finish_of_isWrite (h : Layout ws state) {g : Transition} (hg : g ∈ ws)
    (value : g.valueAt time = g.finish) (write : isWrite time g = true) : g.finish ≠ none := by
  intro removal
  have atRoot : g.path = Path.root := by
    simpa [isWrite, value, removal] using write
  have there := h.owns_path hg
  rw [atRoot, removal] at there
  cases there

theorem isWrite_of_finish {g : Transition} (value : g.valueAt time = g.finish)
    (present : g.finish ≠ none) : isWrite time g = true := by
  simp [isWrite, value, Option.isSome_iff_ne_none, present]

/-! ## The values -/

/-- Items of a list stand in the order of their indices. -/
theorem before_of_behind {stem p q : Path} (h : Behind stem p q) : p.Before q := by
  obtain ⟨key, other, i, j, rfl, rfl, named, located, less⟩ := h
  have left : Path.LeftOf (stem ++ [key]) (stem ++ [other]) :=
    ⟨stem, key, other, [], [], rfl, rfl, Path.compareKeys_of_lt named located less⟩
  exact left.before

/-- A value finds its place, for what holds the place has been written. -/
theorem Layout.takes (h : Layout ws state) {done todo : List Transition} {g : Transition}
    (split : ws.filter (isWrite time) = done ++ g :: todo)
    (values : ∀ r ∈ ws, r.valueAt time = r.finish) {s : Option Tree}
    (written : ∀ x r, Owns ws state r x → r ∈ done → faceAt s x = faceAt (some state) x)
    {stem : Path} {key : String} (path : g.path = stem ++ [key]) (value : g.finish ≠ none) :
    Takes s stem key := by
  have member : g ∈ ws.filter (isWrite time) := by
    rw [split]
    exact List.mem_append_right done List.mem_cons_self
  have hg := (List.mem_filter.1 member).1
  have present : (faceAt (some state) (stem ++ [key])).isSome = true := by
    rw [← path, h.owns_path hg, faceAt_nil, Option.isSome_map, Option.isSome_iff_ne_none]
    exact value
  -- a place before `g` where something stands has been written
  have earlier : ∀ x : Path, (faceAt (some state) x).isSome = true →
      (∀ r : Transition, r.path.covers x = true → r.path.Before g.path) →
      faceAt s x = faceAt (some state) x := by
    intro x there before
    obtain ⟨r, owns⟩ := h.owner x
    have write := isWrite_of_finish (values r owns.1) (owns.isSome_finish there)
    have memberR : r ∈ done ++ g :: todo := by
      rw [← split]
      exact List.mem_filter.2 ⟨owns.1, write⟩
    have ordered : PathOrdered (done ++ g :: todo) := split ▸ h.ordered.filter _
    exact written x r owns
      (mem_left_of_row Path.Before.asymm ordered memberR (before r owns.covers))
  have above : ∀ r : Transition, r.path.covers stem = true → r.path.Before g.path := by
    intro r covers
    apply Path.before_of_isAbove
    obtain ⟨rest, rfl⟩ := Path.covers_iff.1 covers
    apply Path.isAbove_iff.2
    rw [path, List.append_assoc]
    obtain ⟨next, more, same⟩ := List.exists_cons_of_ne_nil (List.concat_ne_nil key rest)
    exact ⟨next, more, by rw [same]⟩
  have stemPresent := isSome_of_covers (Path.covers_append stem [key]) present
  rcases takes_of_present present with isMap | ⟨isList, i, named, filled⟩
  · left
    rw [earlier stem stemPresent above]
    exact isMap
  · right
    refine ⟨(earlier stem stemPresent above).trans isList, i, named, ?_⟩
    intro j less
    have inside : Path.index? (Path.indexKey j) = some j :=
      Path.index?_indexKey (Nat.lt_trans less (Path.eq_indexKey_of_index? named).2)
    have item : Behind stem (stem ++ [Path.indexKey j]) g.path :=
      ⟨_, key, j, i, rfl, path, inside, named, less⟩
    rw [earlier _ (filled j less)]
    · exact filled j less
    · intro r covers
      rcases Path.covers_concat covers with atStem | same
      · exact above r atStem
      · rw [same]
        exact before_of_behind item

/-- A value that finds its place stands there. -/
theorem faceAt_putBelow_of_takes {s value : Option Tree} {p : Path} (present : value ≠ none)
    (takes : ∀ stem key, p = stem ++ [key] → Takes s stem key) (q : Path) :
    faceAt (putBelow s p value) (p ++ q) = faceAt value q := by
  obtain ⟨v, rfl⟩ := Option.ne_none_iff_exists'.1 present
  rcases List.eq_nil_or_concat p with rfl | ⟨stem, key, path⟩
  · rw [putBelow_root, List.nil_append]
  · rw [List.concat_eq_append] at path
    have place := takes stem key path
    cases s with
    | none => rcases place with impossible | ⟨impossible, -⟩ <;> cases impossible
    | some t =>
      obtain ⟨u, made⟩ := place.put v
      rw [← path] at made
      exact faceAt_putBelow_set made q

/-- The places of the values that have been written look like the state. -/
theorem Layout.faceAt_writes (h : Layout ws state)
    (values : ∀ r ∈ ws, r.valueAt time = r.finish) {done todo : List Transition}
    (split : ws.filter (isWrite time) = done ++ todo) :
    ∀ x r, Owns ws state r x → r ∈ done →
      faceAt (writeAll (·.finish) none done) x = faceAt (some state) x := by
  induction done using List.reverseRecOn generalizing todo with
  | nil =>
    intro x r _ hr
    cases hr
  | append_singleton done g ih =>
    rw [List.append_assoc, List.singleton_append] at split
    have written := ih split
    have member : g ∈ ws.filter (isWrite time) := by
      rw [split]
      exact List.mem_append_right done List.mem_cons_self
    obtain ⟨hg, write⟩ := List.mem_filter.1 member
    have finish := h.finish_of_isWrite hg (values g hg) write
    intro x r owns hr
    rw [writeAll_snoc]
    by_cases same : r = g
    · subst same
      obtain ⟨-, ⟨q, rfl, there⟩, -⟩ := owns
      rw [there]
      apply faceAt_putBelow_of_takes finish
      intro stem key path
      exact h.takes split values written path finish
    · have earlier : r ∈ done := by
        rcases List.mem_append.1 hr with hr | hr
        · exact hr
        · exact absurd (List.mem_singleton.1 hr) same
      -- what is written later covers no place of what was written before
      have apart : g.path.covers x = false := by
        rw [← Bool.not_eq_true]
        intro covers
        have above := owns.isAbove h.ordered hg covers (Ne.symm same)
        have ordered : PathOrdered (done ++ g :: todo) := split ▸ h.ordered.filter _
        have before := (List.pairwise_append.1 ordered).2.2 r earlier g List.mem_cons_self
        exact Path.Before.asymm before (Path.before_of_isAbove above)
      rw [faceAt_putBelow_off apart fun removal => absurd removal finish]
      exact written x r owns earlier

/-! ## The removals -/

/-- The shown removals, from the last place to the first. -/
def removals (time : Binary64) (ws : List Transition) : List Transition :=
  (ws.filter fun r => !isWrite time r).reverse

theorem mem_removals {r : Transition} :
    r ∈ removals time ws ↔ r ∈ ws ∧ isWrite time r = false := by
  rw [removals, List.mem_reverse, List.mem_filter, Bool.not_eq_true']

theorem pairwise_removals (ordered : PathOrdered ws) :
    (removals time ws).Pairwise fun a b => b.path.Before a.path :=
  List.pairwise_reverse.2 (ordered.filter _)

/-- Everything above a place is there. -/
def Near (state : Tree) (x : Path) : Prop :=
  ∀ m : Path, m.isAbove x = true → (faceAt (some state) m).isSome = true

theorem near_of_isSome {x : Path} (there : (faceAt (some state) x).isSome = true) :
    Near state x := by
  intro m higher
  exact isSome_of_covers (Path.covers_of_isAbove higher) there

theorem near_concat {stem : Path} (there : (faceAt (some state) stem).isSome = true)
    (key : String) : Near state (stem ++ [key]) := by
  intro m higher
  rcases Path.covers_concat (Path.covers_of_isAbove higher) with above | whole
  · exact isSome_of_covers above there
  · rw [whole] at higher
    exact absurd higher (Path.not_isAbove_self _)

theorem Layout.finish_of_not_isWrite (h : Layout ws state) {g : Transition} (hg : g ∈ ws)
    (value : g.valueAt time = g.finish) (removal : isWrite time g = false) :
    g.finish = none ∧ faceAt (some state) g.path = none := by
  have finish : g.finish = none := by
    by_contra present
    rw [isWrite_of_finish value present] at removal
    cases removal
  refine ⟨finish, ?_⟩
  rw [h.owns_path hg, finish, faceAt_none]

/-- What owns the place behind a removed item is a removal of its own, and removals go from the last
item to the first. -/
theorem Layout.done_of_behind (h : Layout ws state) (values : ∀ r ∈ ws, r.valueAt time = r.finish)
    {done todo : List Transition} {g y : Transition} (split : removals time ws = done ++ g :: todo)
    {stem o : Path} (item : Behind stem g.path o)
    (there : (faceAt (some state) stem).isSome = true) (owns : Owns ws state y o)
    (removal : isWrite time y = false) : y ∈ done := by
  obtain ⟨finish, nothing⟩ := h.finish_of_not_isWrite owns.1 (values y owns.1) removal
  have path : y.path = o := by
    rcases item.covers_item owns.covers with atStem | same
    · have present := isSome_of_covers atStem there
      rw [nothing] at present
      cases present
    · exact same
  have member : y ∈ removals time ws := mem_removals.2 ⟨owns.1, removal⟩
  have row : (removals time ws).Pairwise fun a b => b.path.Before a.path :=
    pairwise_removals h.ordered
  rw [split] at member row
  have first : g.path.Before y.path := by
    rw [path]
    exact before_of_behind item
  exact mem_left_of_row Path.Before.asymm row member first

/-- Nothing stands behind a removed item: nothing does in the state, and whoever owns the place
there has been at work. -/
theorem Layout.removed_behind (h : Layout ws state) (values : ∀ r ∈ ws, r.valueAt time = r.finish)
    {done todo : List Transition} {g : Transition} (split : removals time ws = done ++ g :: todo)
    {s : Option Tree}
    (cleared : ∀ x r, Near state x → Owns ws state r x → isWrite time r = true ∨ r ∈ done →
      faceAt s x = faceAt (some state) x)
    {stem o : Path} (item : Behind stem g.path o) (there : (faceAt (some state) stem).isSome = true)
    (isList : faceAt s stem = some (.list [])) : faceAt s o = none := by
  have member : g ∈ removals time ws := by
    rw [split]
    exact List.mem_append_right done List.mem_cons_self
  obtain ⟨hg, removal⟩ := mem_removals.1 member
  obtain ⟨-, nothing⟩ := h.finish_of_not_isWrite hg (values g hg) removal
  obtain ⟨r, ownsStem⟩ := h.owner stem
  have writeStem := isWrite_of_finish (values r ownsStem.1) (ownsStem.isSome_finish there)
  rw [cleared stem r (near_of_isSome there) ownsStem (Or.inl writeStem)] at isList
  -- what stood behind the item in the state would make the item stand there too
  have nothingO : faceAt (some state) o = none := by
    cases present : faceAt (some state) o with
    | none => rfl
    | some f =>
      have before := isSome_of_behind item isList (by rw [present]; rfl)
      rw [nothing] at before
      cases before
  have nearO : Near state o := by
    obtain ⟨-, other, -, -, -, rfl, -⟩ := item
    exact near_concat there other
  obtain ⟨y, ownsO⟩ := h.owner o
  rw [cleared o y nearO ownsO ?_, nothingO]
  cases write : isWrite time y with
  | true => exact Or.inl rfl
  | false => exact Or.inr (h.done_of_behind values split item there ownsO write)

theorem regular_writeAll {rs : List Transition} (regular : ∀ r ∈ rs, RegularSlot r.finish)
    {s : Option Tree} (hs : RegularSlot s) : RegularSlot (writeAll (·.finish) s rs) := by
  induction rs generalizing s with
  | nil => exact hs
  | cons r rs ih =>
    apply ih
    · intro x hx
      exact regular x (List.mem_cons_of_mem r hx)
    · exact Slot.putBelow regular_hereditary hs (regular r List.mem_cons_self) _

/-- With the removals the places that the values left alone look like the state too. -/
theorem Layout.faceAt_removals (h : Layout ws state)
    (values : ∀ r ∈ ws, r.valueAt time = r.finish) {s : Option Tree} (regular : RegularSlot s)
    (written : ∀ x r, Owns ws state r x → isWrite time r = true →
      faceAt s x = faceAt (some state) x) {done todo : List Transition}
    (split : removals time ws = done ++ todo) :
    ∀ x r, Near state x → Owns ws state r x → isWrite time r = true ∨ r ∈ done →
      faceAt (writeAll (·.finish) s done) x = faceAt (some state) x := by
  induction done using List.reverseRecOn generalizing todo with
  | nil =>
    rintro x r - owns (write | hr)
    · exact written x r owns write
    · cases hr
  | append_singleton done g ih =>
    rw [List.append_assoc, List.singleton_append] at split
    have cleared := ih split
    have mem : ∀ {r : Transition}, r ∈ done ++ g :: todo → r ∈ ws ∧ isWrite time r = false := by
      intro r hr
      rw [← split] at hr
      exact mem_removals.1 hr
    obtain ⟨hg, removal⟩ := mem (List.mem_append_right done List.mem_cons_self)
    obtain ⟨finish, nothing⟩ := h.finish_of_not_isWrite hg (values g hg) removal
    have regularDone : RegularSlot (writeAll (·.finish) s done) :=
      regular_writeAll (fun r hr => h.regular r (mem (List.mem_append_left _ hr)).1) regular
    intro x r near owns worked
    rw [writeAll_snoc, finish]
    by_cases covers : g.path.covers x = true
    · -- nothing stands at the removed place, so `x` is that place
      obtain rfl : g.path = x := by
        rcases Path.covers_iff_eq_or_isAbove.1 covers with same | above
        · exact same
        · have present := near _ above
          rw [nothing] at present
          cases present
      have last : NoneBehind (writeAll (·.finish) s done) g.path := by
        intro stem o item isList
        exact h.removed_behind values split cleared item (near _ item.stem_isAbove) isList
      have gone := faceAt_putBelow_removal regularDone last []
      rw [List.append_nil] at gone
      rw [nothing, gone]
    · rw [Bool.not_eq_true] at covers
      rw [faceAt_putBelow_off covers ?_]
      · apply cleared x r near owns
        rcases worked with write | hr
        · exact Or.inl write
        · rcases List.mem_append.1 hr with hr | hr
          · exact Or.inr hr
          · rw [← List.mem_singleton.1 hr, owns.covers] at covers
            cases covers
      · rintro - ⟨stem, o, item, under, isList, present⟩
        have there := near _ (item.isAbove under)
        rw [h.removed_behind values split cleared item there isList] at present
        cases present

/-! ## The frame -/

/-- Trees that look alike at every place above which everything is there look alike. -/
theorem faceAt_eq_of_near {s : Option Tree}
    (same : ∀ x, Near state x → faceAt s x = faceAt (some state) x) (x : Path) :
    faceAt s x = faceAt (some state) x := by
  induction x using List.reverseRecOn with
  | nil =>
    apply same
    intro m above
    obtain ⟨key, rest, split⟩ := Path.isAbove_iff.1 above
    have length := congrArg List.length split
    simp at length
  | append_singleton x key ih =>
    cases there : faceAt (some state) x with
    | none => rw [faceAt_append_eq_none there, faceAt_append_eq_none (ih.trans there)]
    | some f => exact same _ (near_concat (by rw [there]; rfl) key)

/-- After all values and some of the removals, the places that the values left alone and those that
have been cleared look like the state. -/
theorem Layout.faceAt_cleared (h : Layout ws state) (values : ∀ r ∈ ws, r.valueAt time = r.finish)
    {done todo : List Transition} (split : removals time ws = done ++ todo) :
    ∀ x r, Near state x → Owns ws state r x → isWrite time r = true ∨ r ∈ done →
      faceAt (writeAll (·.finish) (writeAll (·.finish) none (ws.filter (isWrite time))) done) x =
        faceAt (some state) x := by
  refine h.faceAt_removals values ?_ ?_ split
  · exact regular_writeAll (fun r hr => h.regular r (List.mem_filter.1 hr).1) slot_none
  · intro x r owns write
    exact h.faceAt_writes values (List.append_nil _).symm x r owns
      (List.mem_filter.2 ⟨owns.1, write⟩)

/-- The values and then the removals build the state that is laid out. -/
theorem Layout.writeAll_eq (h : Layout ws state) (values : ∀ r ∈ ws, r.valueAt time = r.finish) :
    writeAll (·.finish) none (inWriteOrder time ws) = some state := by
  have cleared := h.faceAt_cleared values (List.append_nil _).symm
  have near : ∀ x, Near state x →
      faceAt (writeAll (·.finish) none (inWriteOrder time ws)) x = faceAt (some state) x := by
    intro x near
    obtain ⟨r, owns⟩ := h.owner x
    rw [inWriteOrder, writeAll_append]
    apply cleared x r near owns
    by_cases write : isWrite time r = true
    · exact Or.inl write
    · exact Or.inr (mem_removals.2 ⟨owns.1, by simpa using write⟩)
  have same := faceAt_eq_of_near near
  have regularAll : RegularSlot (writeAll (·.finish) none (inWriteOrder time ws)) :=
    regular_writeAll (fun r hr => h.regular r ((inWriteOrder_perm time ws).mem_iff.1 hr)) slot_none
  cases drawn : writeAll (·.finish) none (inWriteOrder time ws) with
  | none =>
    have atRoot := same []
    rw [drawn] at atRoot
    cases atRoot
  | some t =>
    rw [drawn] at same
    exact congrArg some (ext_of_faceAt t state (regularAll t drawn) h.stateRegular same)

variable {rs : List Transition}

/-- What is shown once all is over lays out the state that is carried. -/
theorem layout_shown (h : Carries rs state) (distinct : DistinctIds rs)
    (root : ∃ b ∈ rs, b.path = Path.root) (started : ∀ r ∈ rs, r.startTime ≤ time) :
    Layout (shown time rs) state := by
  obtain ⟨b, hb, atRoot⟩ := root
  have mem_iff : ∀ {r : Transition}, r ∈ shown time rs ↔
      r ∈ rs ∧ ∀ x ∈ rs, r.Older x → x.path.covers r.path = false := by
    intro r
    rw [mem_shown distinct ⟨b, hb, atRoot, started b hb⟩]
    exact ⟨fun shown => ⟨shown.1.1, fun x hx => shown.2 x hx (started x hx)⟩,
      fun shown => ⟨⟨shown.1, started r shown.1⟩, fun x hx _ => shown.2 x hx⟩⟩
  refine ⟨pathOrdered_shown time rs, fun r hr => h.regular r (mem_iff.1 hr).1, h.stateRegular, ?_⟩
  intro x
  have covered : ¬ NoneCovers rs x := by
    intro free
    have apart := free b hb
    rw [atRoot] at apart
    cases apart
  obtain ⟨before, r, behind, q, rfl, rfl, free⟩ := exists_newest covered
  have member : r ∈ before ++ r :: behind := List.mem_append_right before List.mem_cons_self
  refine ⟨r, mem_iff.2 ⟨member, fun y hy older => ?_⟩, ⟨q, rfl, ?_⟩, fun w hw covers => ?_⟩
  · exact Path.not_covers_above (free y (newer_of_mem_split h.ordered hy older))
      (Path.covers_append ..)
  · rw [← h.leads]
    exact outcome_of_newest before free
  · -- of two that cover the place the newer one is hidden if it is not the deeper one
    obtain ⟨hw, newest⟩ := mem_iff.1 hw
    rcases Path.covers_or_covers covers (Path.covers_append r.path q) with above | below
    · exact above
    · rcases eq_or_older_of_pairwise h.ordered member hw with rfl | older | newer
      · exact Path.covers_self _
      · rw [free w (newer_of_mem_split h.ordered hw older)] at covers
        cases covers
      · rw [newest r member newer] at below
        cases below

/-- Once everything is over the frame is the state that is carried. -/
theorem root_ofTransitions_of_carries (h : Carries rs state) (distinct : DistinctIds rs)
    (root : ∃ b ∈ rs, b.path = Path.root) (started : ∀ r ∈ rs, r.startTime ≤ time)
    (values : ∀ r ∈ rs, r.valueAt time = r.finish) :
    (ofTransitions rs time).root = some state := by
  have shownValues : ∀ r ∈ shown time rs, r.valueAt time = r.finish := by
    intro r hr
    exact values r (mem_of_mem_shown hr)
  rw [root_ofTransitions_of_values values]
  exact (layout_shown h distinct root started).writeAll_eq shownValues

/-- What the first state lacks, and all others leave alone, is not in the frame. -/
theorem lacks_root_ofTransitions {b : Transition} {kept : List Transition} {p : Path}
    (distinct : DistinctIds (b :: kept)) (atRoot : b.path = Path.root)
    (lacks : Lacks b.finish state p) (spares : ∀ x ∈ kept, Spares state p x)
    (started : ∀ r ∈ b :: kept, r.startTime ≤ time)
    (values : ∀ r ∈ b :: kept, r.valueAt time = r.finish) :
    Lacks (ofTransitions (b :: kept) time).root state p := by
  -- a newer root would cover the place that is lacking
  have notRoot : ∀ x ∈ kept, x.path.covers b.path = false := by
    intro x hx
    apply Path.not_covers_above (spares x hx).apart
    rw [atRoot]
    exact Path.covers_append [] p
  have isShown : b ∈ shown time (b :: kept) := by
    refine (mem_shown distinct ⟨b, List.mem_cons_self, atRoot, started b List.mem_cons_self⟩).2
      ⟨⟨List.mem_cons_self, started b List.mem_cons_self⟩, fun x hx _ older => ?_⟩
    rcases List.mem_cons.1 hx with rfl | hx
    · exact absurd older (Older.irrefl _)
    · exact notRoot x hx
  obtain ⟨before, behind, split⟩ :=
    List.append_of_mem ((inWriteOrder_perm time _).mem_iff.2 isShown)
  rw [root_ofTransitions_of_values values, split, writeAll_append, writeAll_cons, atRoot,
    show putBelow _ Path.root b.finish = b.finish from putBelow_root ..]
  apply lacks.writeAll
  intro r hr
  have shownR : r ∈ inWriteOrder time (shown time (b :: kept)) := by
    rw [split]
    exact List.mem_append_right before (List.mem_cons_of_mem b hr)
  rcases List.mem_cons.1 (mem_of_mem_inWriteOrder shownR) with rfl | hr
  · exact Or.inl ⟨atRoot, lacks⟩
  · exact Or.inr (spares r hr)

end Frame

end TableMotion
