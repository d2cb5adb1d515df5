import TableMotion.Proofs.Outcomes

/-!
# What a pruning loses

Transitions that end in the order of their starts are over in that order, so a pruning folds them
one after another into the first state. Each fold shows the state wherever nothing newer covers a
path (`Carries.fold_next`), unless an appended item finds the list shorter than it was: its value
has no place and is lost (`losses`). Then the first state lacks that item for good
(`Carries.lacks_of_lost`).
-/

namespace TableMotion

namespace Schedule

open TableMotion.Tree Transition

/-- Whether the value of a transition has no place in what holds it. -/
def hasNoPlace (holder : Option Tree) (g : Transition) : Bool :=
  match holder, g.finish with
  | some t, some v =>
    match t.put g.path (some v) with
    | .ok _ => false
    | .error _ => true
  | _, _ => false

/-- Those of some transitions whose values are lost when they are folded into a holder one after
another: nothing newer covers them, and they have no place. -/
def lost (rs : List Transition) (holder : Transition) : List Transition → List Transition
  | [] => []
  | g :: gone =>
    let others := lost rs (handDown g holder) gone
    if hasNoPlace holder.finish g && !rs.any fun x => g.precedence x = .lt && x.path.covers g.path
    then g :: others
    else others

/-- The transitions whose values a pruning loses. The first transition holds the first state. -/
def losses (s : Schedule) (time : Binary64) : List Transition :=
  match s.transitions with
  | [] => []
  | b :: rest => lost rest b (rest.filter (·.isOverBefore time))

theorem put_of_not_hasNoPlace {t v : Tree} {g : Transition} (finish : g.finish = some v)
    (place : hasNoPlace (some t) g = false) : ∃ u, t.put g.path (some v) = .ok u := by
  simp only [hasNoPlace, finish] at place
  split at place
  · rename_i u made
    exact ⟨u, made⟩
  · cases place

theorem put_of_hasNoPlace {holder : Option Tree} {g : Transition}
    (noPlace : hasNoPlace holder g = true) :
    ∃ t v, holder = some t ∧ g.finish = some v ∧ ∀ u, t.put g.path (some v) ≠ .ok u := by
  unfold hasNoPlace at noPlace
  split at noPlace
  · rename_i t v finish
    refine ⟨t, v, rfl, finish, ?_⟩
    intro u made
    rw [made] at noPlace
    cases noPlace
  · cases noPlace

/-! ## One fold -/

variable {before left : List Transition} {g holder : Transition} {state : Tree}

/-- The holder shows the state wherever what is left covers nothing. -/
def ShowsOff (left : List Transition) (holder : Transition) (state : Tree) : Prop :=
  ∀ x, NoneCovers left x → faceAt holder.finish x = faceAt (some state) x

theorem NoneCovers.cons {x : Path} (apart : g.path.covers x = false) (free : NoneCovers left x) :
    NoneCovers (g :: left) x := by
  intro y hy
  rcases List.mem_cons.1 hy with rfl | hy
  · exact apart
  · exact free y hy

/-- What stands behind an item that goes, and is there, is still to come. -/
theorem Carries.not_free_of_behind (h : Carries (before ++ g :: left) state)
    (removal : g.finish = none) {stem o : Path} (item : Behind stem g.path o)
    (isList : faceAt (some state) stem = some (.list []))
    (present : (faceAt (some state) o).isSome = true) : ¬ NoneCovers left o := by
  intro free
  have member : g ∈ before ++ g :: left := List.mem_append_right before List.mem_cons_self
  obtain ⟨y, hy, newer, covers⟩ := h.behind g member removal stem o item isList present
  rw [free y (newer_of_mem_split h.ordered hy newer)] at covers
  cases covers

theorem Carries.noneBehind_holder (h : Carries (before ++ g :: left) state)
    (shows : ShowsOff (g :: left) holder state) (removal : g.finish = none)
    (free : NoneCovers left g.path) : NoneBehind holder.finish g.path := by
  intro stem o item isList
  have freeStem := NoneCovers.cons item.not_covers_stem.1 (free.above item.covers_stem.1)
  rw [shows stem freeStem] at isList
  have freeO : NoneCovers left o := by
    intro y hy
    rw [← Bool.not_eq_true]
    intro covers
    rcases item.covers_item covers with atStem | same
    · have apart := free y hy
      rw [Path.covers_trans atStem item.covers_stem.1] at apart
      cases apart
    · -- something newer was written behind the item, so its place is newer too
      have member : g ∈ before ++ g :: left := List.mem_append_right before List.mem_cons_self
      have memberY : y ∈ before ++ g :: left :=
        List.mem_append_right before (List.mem_cons_of_mem g hy)
      have newer : g.Older y :=
        List.rel_of_pairwise_cons (List.pairwise_append.1 h.ordered).2.1 hy
      obtain ⟨z, hz, newerZ, coversZ⟩ :=
        h.place g member removal y memberY newer stem (same ▸ item) isList
      rw [free z (newer_of_mem_split h.ordered hz newerZ)] at coversZ
      cases coversZ
  rw [shows o (freeO.cons (item.apart (Path.covers_self o)))]
  cases there : faceAt (some state) o with
  | none => rfl
  | some f =>
    exact absurd freeO (h.not_free_of_behind removal item isList (by rw [there]; rfl))

theorem Carries.not_displaced_holder (h : Carries (before ++ g :: left) state)
    (shows : ShowsOff (g :: left) holder state) (removal : g.finish = none) {x : Path}
    (free : NoneCovers left x) : ¬ Displaced holder.finish g.path x := by
  rintro ⟨stem, o, item, under, isList, present⟩
  have freeO := (free.above under).cons (item.apart (Path.covers_self o))
  rw [shows o freeO] at present
  rw [shows stem (freeO.above item.covers_stem.2)] at isList
  exact h.not_free_of_behind removal item isList present (free.above under)

theorem finish_handDown_of_root (atRoot : holder.path = Path.root) (older : holder.Older g) :
    (handDown g holder).finish = putBelow holder.finish g.path g.finish := by
  rw [@handDown_eq g holder older g.path (by rw [atRoot]; rfl)]

/-- A fold that loses nothing shows the state wherever what is left then covers nothing. -/
theorem Carries.fold_next (h : Carries (before ++ g :: left) state)
    (regular : RegularSlot holder.finish) (atRoot : holder.path = Path.root)
    (older : holder.Older g) (shows : ShowsOff (g :: left) holder state)
    (place : NoneCovers left g.path → hasNoPlace holder.finish g = false) :
    ShowsOff left (handDown g holder) state := by
  intro x free
  rw [finish_handDown_of_root atRoot older]
  by_cases covers : g.path.covers x = true
  · obtain ⟨q, rfl⟩ := Path.covers_iff.1 covers
    have freeG : NoneCovers left g.path := free.above covers
    rw [← h.leads, outcome_of_newest before free]
    cases finish : g.finish with
    | none => exact faceAt_putBelow_removal regular (h.noneBehind_holder shows finish freeG) q
    | some v =>
      cases path : g.path with
      | nil => rw [putBelow_root, List.nil_append]
      | cons key p =>
        have top : NoneCovers (g :: left) [] :=
          NoneCovers.cons (by rw [path]; rfl) (freeG.above (by simp [Path.covers]))
        have there := shows [] top
        cases held : holder.finish with
        | none => simp [held] at there
        | some t =>
          obtain ⟨u, made⟩ := put_of_not_hasNoPlace finish (held ▸ place freeG)
          rw [← path]
          exact faceAt_putBelow_set made q
  · rw [Bool.not_eq_true] at covers
    rw [faceAt_putBelow_off covers fun removal => h.not_displaced_holder shows removal free]
    exact shows x (free.cons covers)

/-! ## What is lacking -/

/-- A tree lacks a node of the state; above it the tree looks like the state. -/
structure Lacks (s : Option Tree) (state : Tree) (p : Path) : Prop where
  present : (faceAt (some state) p).isSome = true
  absent : faceAt s p = none
  above : ∀ m : Path, m.isAbove p = true → faceAt s m = faceAt (some state) m

/-- A transition leaves a path alone, and what is above it: it does not cover the path, and if it
takes an item out of a list of the state, the path does not lie behind that item. -/
structure Spares (state : Tree) (p : Path) (x : Transition) : Prop where
  apart : x.path.covers p = false
  still : x.finish = none → ∀ stem o, Behind stem x.path o → o.covers p = true →
    faceAt (some state) stem = some (.list []) → faceAt (some state) o = none

variable {s : Option Tree} {p : Path}

/-- What leaves the place alone does not bring the node back. -/
theorem Lacks.putBelow (h : Lacks s state p) {x : Transition} (spares : Spares state p x) :
    Lacks (putBelow s x.path x.finish) state p := by
  have same : ∀ m : Path, m.covers p = true →
      faceAt (Schedule.putBelow s x.path x.finish) m = faceAt s m := by
    intro m top
    apply faceAt_putBelow_off (Path.not_covers_above spares.apart top)
    rintro removal ⟨stem, o, item, under, isList, present⟩
    have covers := Path.covers_trans under top
    rw [h.above stem (item.isAbove covers)] at isList
    rcases Path.covers_iff_eq_or_isAbove.1 covers with rfl | above
    · rw [h.absent] at present
      cases present
    · rw [h.above o above, spares.still removal stem o item covers isList] at present
      cases present
  refine ⟨h.present, ?_, fun m above => ?_⟩
  · rw [same p (Path.covers_self p), h.absent]
  · rw [same m (Path.covers_of_isAbove above), h.above m above]

/-- Writes that put in the same lacking tree, or leave the place alone, do not bring the node
back. -/
theorem Lacks.writeAll {rs : List Transition} (h : Lacks s state p)
    (each : ∀ r ∈ rs, r.path = Path.root ∧ Lacks r.finish state p ∨ Spares state p r) :
    Lacks (Schedule.writeAll (·.finish) s rs) state p := by
  induction rs generalizing s with
  | nil => exact h
  | cons r rs ih =>
    refine ih ?_ fun x hx => each x (List.mem_cons_of_mem r hx)
    show Lacks (Schedule.putBelow s r.path r.finish) state p
    rcases each r List.mem_cons_self with ⟨atRoot, lacks⟩ | spares
    · rw [atRoot, show Schedule.putBelow s Path.root r.finish = r.finish from putBelow_root ..]
      exact lacks
    · exact h.putBelow spares

theorem Lacks.handAllDown {holder : Transition} (h : Lacks holder.finish state p)
    (atRoot : holder.path = Path.root) {gone : List Transition}
    (older : ∀ g ∈ gone, holder.Older g) (spares : ∀ g ∈ gone, Spares state p g) :
    Lacks (handAllDown gone holder).finish state p := by
  induction gone generalizing holder with
  | nil => exact h
  | cons g gone ih =>
    have next := h.putBelow (spares g List.mem_cons_self)
    rw [← finish_handDown_of_root atRoot (older g List.mem_cons_self)] at next
    exact ih next (by rw [handDown_path, atRoot])
      (fun x hx => (older_handDown_iff ..).2 (older x (List.mem_cons_of_mem g hx)))
      fun x hx => spares x (List.mem_cons_of_mem g hx)

/-- What is newer than a value that nothing covers leaves its place alone. -/
theorem Carries.spares (h : Carries (before ++ g :: left) state) (free : NoneCovers left g.path) :
    ∀ x ∈ left, Spares state g.path x := by
  intro x hx
  refine ⟨free x hx, ?_⟩
  intro removal stem o item covers isList
  have older : g.Older x := List.rel_of_pairwise_cons (List.pairwise_append.1 h.ordered).2.1 hx
  have member : x ∈ before ++ g :: left :=
    List.mem_append_right before (List.mem_cons_of_mem g hx)
  by_contra present
  obtain ⟨y, hy, newer, coversO⟩ := h.behind x member removal stem o item isList
    (Option.isSome_iff_ne_none.2 present)
  have apart := free y (newer_of_mem_split h.ordered hy (older.trans newer))
  rw [Path.covers_trans coversO covers] at apart
  cases apart

/-- A value that nothing covers and that has no place is lacking after its fold. -/
theorem Carries.lacks (h : Carries (before ++ g :: left) state)
    (shows : ShowsOff (g :: left) holder state) (free : NoneCovers left g.path)
    (noPlace : hasNoPlace holder.finish g = true) :
    Lacks (putBelow holder.finish g.path g.finish) state g.path := by
  obtain ⟨t, v, held, finish, failed⟩ := put_of_hasNoPlace noPlace
  refine ⟨?_, ?_, fun m above => ?_⟩
  · have atPath := outcome_of_newest before (q := []) (by simpa using free)
    rw [List.append_nil, h.leads, finish] at atPath
    rw [atPath]
    rfl
  · rw [held, finish]
    exact faceAt_putBelow_lost failed
  · have apart := Path.not_covers_of_isAbove above
    have top := Path.covers_of_isAbove above
    rw [faceAt_putBelow_off apart fun removal => by rw [finish] at removal; cases removal]
    exact shows m ((free.above top).cons apart)

/-! ## All folds of a pruning -/

variable {b : Transition} {rest gone kept : List Transition}

theorem lost_cons (rs : List Transition) (holder g : Transition) (gone : List Transition) :
    lost rs holder (g :: gone) =
      if hasNoPlace holder.finish g &&
          !rs.any fun x => g.precedence x = .lt && x.path.covers g.path
      then g :: lost rs (handDown g holder) gone
      else lost rs (handDown g holder) gone := rfl

/-- Whether something newer covers a value is whether something that is left does. -/
theorem any_newer_iff (ordered : (before ++ g :: left).Pairwise Older)
    (members : ∀ x ∈ rest, x ∈ before ++ g :: left) (all : ∀ x ∈ left, x ∈ rest) :
    (!rest.any fun x => g.precedence x = .lt && x.path.covers g.path) = true ↔
      NoneCovers left g.path := by
  rw [Bool.not_eq_true', List.any_eq_false]
  constructor
  · intro free x hx
    have older : g.Older x := List.rel_of_pairwise_cons (List.pairwise_append.1 ordered).2.1 hx
    have notBoth := free x (all x hx)
    simpa [show g.precedence x = .lt from older] using notBoth
  · intro free x hx both
    simp only [Bool.and_eq_true, decide_eq_true_eq] at both
    have later := newer_of_mem_split ordered (members x hx) both.1
    rw [free x later] at both
    cases both.2

/-- What passes from fold to fold: a holder at the root shows the state wherever what is left of
the rest covers nothing. -/
structure FoldsInto (rest before left : List Transition) (holder : Transition)
    (state : Tree) : Prop where
  carries : Carries (before ++ left) state
  members : ∀ x ∈ rest, x ∈ before ++ left
  all : ∀ x ∈ left, x ∈ rest
  regular : RegularSlot holder.finish
  atRoot : holder.path = Path.root
  older : ∀ x ∈ left, holder.Older x
  shows : ShowsOff left holder state

/-- The first state shows the state wherever nothing else covers a path. -/
theorem Carries.showsOff_base (h : Carries (b :: rest) state) (atRoot : b.path = Path.root) :
    ShowsOff rest b state := by
  intro x free
  have split : x = b.path ++ x := by rw [atRoot]; rfl
  have newest := outcome_of_newest [] (split ▸ free)
  rw [← split] at newest
  rw [← h.leads]
  exact newest.symm

theorem Carries.foldsInto_base (h : Carries (b :: rest) state) (atRoot : b.path = Path.root) :
    FoldsInto rest [b] rest b state where
  carries := h
  members := by
    intro x hx
    exact List.mem_cons_of_mem b hx
  all := fun x hx => hx
  regular := h.regular b List.mem_cons_self
  atRoot := atRoot
  older := (List.pairwise_cons.1 h.ordered).1
  shows := h.showsOff_base atRoot

theorem FoldsInto.next (h : FoldsInto rest before (g :: left) holder state)
    (place : NoneCovers left g.path → hasNoPlace holder.finish g = false) :
    FoldsInto rest (before ++ [g]) left (handDown g holder) state where
  carries := by
    rw [← List.append_cons]
    exact h.carries
  members := by
    rw [← List.append_cons]
    exact h.members
  all := by
    intro x hx
    exact h.all x (List.mem_cons_of_mem g hx)
  regular := by
    have regularG := h.carries.regular g (List.mem_append_right before List.mem_cons_self)
    exact regular_handDown regularG h.regular
  atRoot := by rw [handDown_path, h.atRoot]
  older := by
    intro x hx
    rw [older_handDown_iff]
    exact h.older x (List.mem_cons_of_mem g hx)
  shows := h.carries.fold_next h.regular h.atRoot (h.older g List.mem_cons_self) h.shows place

theorem FoldsInto.uncovered_iff (h : FoldsInto rest before (g :: left) holder state) :
    (!rest.any fun x => g.precedence x = .lt && x.path.covers g.path) = true ↔
      NoneCovers left g.path :=
  any_newer_iff h.carries.ordered h.members fun x hx => h.all x (List.mem_cons_of_mem g hx)

/-- Folds that lose nothing show the state wherever what is kept covers nothing. -/
theorem FoldsInto.fold_all {gone before : List Transition} {holder : Transition}
    (h : FoldsInto rest before (gone ++ kept) holder state)
    (nothing : lost rest holder gone = []) : ShowsOff kept (handAllDown gone holder) state := by
  induction gone generalizing before holder with
  | nil => exact h.shows
  | cons g gone ih =>
    rw [List.cons_append] at h
    rw [lost_cons] at nothing
    split at nothing
    · cases nothing
    · rename_i hasPlace
      have place : NoneCovers (gone ++ kept) g.path → hasNoPlace holder.finish g = false := by
        intro free
        have uncovered := h.uncovered_iff.2 free
        simpa [uncovered] using hasPlace
      rw [handAllDown_cons]
      exact ih (h.next place) nothing

/-- What is lost is lacking for good: what is kept does not bring it back. -/
theorem FoldsInto.lacks_of_lost {gone before : List Transition} {holder : Transition}
    (h : FoldsInto rest before (gone ++ kept) holder state)
    (something : lost rest holder gone ≠ []) :
    ∃ p, Lacks (handAllDown gone holder).finish state p ∧ ∀ x ∈ kept, Spares state p x := by
  induction gone generalizing before holder with
  | nil => exact absurd rfl something
  | cons g gone ih =>
    rw [List.cons_append] at h
    rw [handAllDown_cons]
    by_cases lostHere : NoneCovers (gone ++ kept) g.path ∧ hasNoPlace holder.finish g = true
    · obtain ⟨free, noPlace⟩ := lostHere
      have olderG := h.older g List.mem_cons_self
      have lacks := h.carries.lacks h.shows free noPlace
      rw [← finish_handDown_of_root h.atRoot olderG] at lacks
      have spares := h.carries.spares free
      refine ⟨g.path, ?_, ?_⟩
      · apply lacks.handAllDown
        · rw [handDown_path, h.atRoot]
        · intro x hx
          rw [older_handDown_iff]
          exact h.older x (List.mem_cons_of_mem g (List.mem_append_left kept hx))
        · intro x hx
          exact spares x (List.mem_append_left kept hx)
      · intro x hx
        exact spares x (List.mem_append_right gone hx)
    · -- nothing is lost here, so something is lost later
      have place : NoneCovers (gone ++ kept) g.path → hasNoPlace holder.finish g = false := by
        intro free
        simpa [free] using lostHere
      have later : lost rest (handDown g holder) gone ≠ [] := by
        rw [lost_cons, if_neg] at something
        · exact something
        · rw [Bool.and_eq_true, h.uncovered_iff]
          intro both
          exact lostHere ⟨both.2, both.1⟩
      exact ih (h.next place) later

/-! ## What a pruning leaves -/

/-- Nothing stands behind the root of a state. -/
theorem not_behind_root {stem p q : Path} (atRoot : p = Path.root) : ¬ Behind stem p q := by
  rintro ⟨key, other, i, j, path, -⟩
  rw [atRoot] at path
  have length := congrArg List.length path
  simp [Path.root] at length

/-- What is newer than something that is kept is kept. -/
theorem mem_kept_of_newer (ordered : (b :: (gone ++ kept)).Pairwise Older) {g y : Transition}
    (hg : g ∈ kept) (hy : y ∈ b :: (gone ++ kept)) (newer : g.Older y) : y ∈ kept := by
  obtain ⟨k, l, rfl⟩ := List.append_of_mem hg
  rw [← List.cons_append, ← List.append_assoc] at ordered hy
  exact List.mem_append_right k (List.mem_cons_of_mem g (newer_of_mem_split ordered hy newer))

theorem Carries.leads_pruned (h : Carries (b :: (gone ++ kept)) state) (atRoot : b.path = Path.root)
    (shows : ShowsOff kept (handAllDown gone b) state) (x : Path) :
    outcome (handAllDown gone b :: kept) x = faceAt (some state) x := by
  by_cases free : NoneCovers kept x
  · have split : x = (handAllDown gone b).path ++ x := by rw [handAllDown_path, atRoot]; rfl
    have newest := outcome_of_newest [] (split ▸ free)
    rw [← split] at newest
    exact newest.trans (shows x free)
  · obtain ⟨k, r, l, q, rfl, rfl, freeL⟩ := exists_newest free
    have after := outcome_of_newest (handAllDown gone b :: k) freeL
    have before := outcome_of_newest (b :: (gone ++ k)) freeL
    rw [← h.leads]
    simpa using after.trans before.symm

/-- A pruning that loses nothing still carries the state. -/
theorem Carries.prune (h : Carries (b :: (gone ++ kept)) state) (atRoot : b.path = Path.root)
    (nothing : lost (gone ++ kept) b gone = []) :
    Carries (handAllDown gone b :: kept) state := by
  obtain ⟨olderB, orderedRest⟩ := List.pairwise_cons.1 h.ordered
  have shows : ShowsOff kept (handAllDown gone b) state :=
    (h.foldsInto_base atRoot).fold_all nothing
  have member : ∀ x ∈ kept, x ∈ b :: (gone ++ kept) := by
    intro x hx
    exact List.mem_cons_of_mem b (List.mem_append_right gone hx)
  have atRootFolded : (handAllDown gone b).path = Path.root := by rw [handAllDown_path, atRoot]
  refine ⟨?_, ?_, h.stateRegular, h.leads_pruned atRoot shows, ?_, ?_⟩
  · refine List.pairwise_cons.2 ⟨?_, (List.pairwise_append.1 orderedRest).2.1⟩
    intro x hx
    rw [older_handAllDown_left]
    exact olderB x (List.mem_append_right gone hx)
  · intro x hx
    rcases List.mem_cons.1 hx with rfl | hx
    · apply regular_handAllDown
      · intro g hg
        exact h.regular g (List.mem_cons_of_mem b (List.mem_append_left kept hg))
      · exact h.regular b List.mem_cons_self
    · exact h.regular x (member x hx)
  · intro g hg removal stem q item isList present
    rcases List.mem_cons.1 hg with rfl | hg
    · exact absurd item (not_behind_root atRootFolded)
    · obtain ⟨y, hy, newer, covers⟩ :=
        h.behind g (member g hg) removal stem q item isList present
      have kept := mem_kept_of_newer h.ordered hg hy newer
      exact ⟨y, List.mem_cons_of_mem _ kept, newer, covers⟩
  · intro g hg removal x hx newerX stem item isList
    rcases List.mem_cons.1 hg with rfl | hg
    · exact absurd item (not_behind_root atRootFolded)
    · rcases List.mem_cons.1 hx with rfl | hx
      · rw [older_handAllDown_right] at newerX
        exact absurd newerX (olderB g (List.mem_append_right gone hg)).asymm
      · obtain ⟨y, hy, newer, covers⟩ :=
          h.place g (member g hg) removal x (member x hx) newerX stem item isList
        have kept := mem_kept_of_newer h.ordered hg hy newer
        exact ⟨y, List.mem_cons_of_mem _ kept, newer, covers⟩

end Schedule

end TableMotion
