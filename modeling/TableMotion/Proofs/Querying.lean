import TableMotion.Proofs.Drawing
import TableMotion.Proofs.Faces

/-!
# Drawing a single path

The node at a path can be drawn from the transitions on it, above it and under it
(`valueAt_eq_get?_frameAt`). What the others write lies beside the path: it hides none of these,
and without lists it moves nothing on the path either (`AgreeAt`).
-/

namespace TableMotion

/-! ## Trees on a path -/

namespace Tree

/-- Trees that look alike above a path and are the same from there on. -/
def AgreeAt : Path → Option Tree → Option Tree → Prop
  | [], s, u => s = u
  | key :: p, s, u => s.map face = u.map face ∧ AgreeAt p (childOf s key) (childOf u key)

theorem AgreeAt.refl (p : Path) (s : Option Tree) : AgreeAt p s s := by
  induction p generalizing s with
  | nil => exact rfl
  | cons key p ih => exact ⟨rfl, ih _⟩

theorem AgreeAt.symm {p : Path} {s u : Option Tree} (h : AgreeAt p s u) : AgreeAt p u s := by
  induction p generalizing s u with
  | nil => exact Eq.symm h
  | cons key p ih => exact ⟨h.1.symm, ih h.2⟩

theorem AgreeAt.trans {p : Path} {s u w : Option Tree} (h : AgreeAt p s u) (k : AgreeAt p u w) :
    AgreeAt p s w := by
  induction p generalizing s u w with
  | nil => exact Eq.trans h k
  | cons key p ih => exact ⟨h.1.trans k.1, ih h.2 k.2⟩

/-- Trees that agree on a path hold the same node there. -/
theorem AgreeAt.get?_eq {p : Path} {s u : Option Tree} (h : AgreeAt p s u) :
    s.bind (·.get? p) = u.bind (·.get? p) := by
  induction p generalizing s u with
  | nil =>
    cases (h : s = u)
    rfl
  | cons key p ih =>
    have below (s : Option Tree) :
        s.bind (·.get? (key :: p)) = (childOf s key).bind (·.get? p) := by
      cases s with
      | none => rfl
      | some t => exact get?_cons t key p
    rw [below, below]
    exact ih h.2

/-! ### One key -/

theorem map_face_assignChild (s : Option Tree) (key : String) (c : Option Tree) :
    (assignChild s key c).map face = s.map face := by
  cases s with
  | none => rfl
  | some t => cases t <;> rfl

theorem childOf_assignChild_of_ne (s : Option Tree) {key other : String} (c : Option Tree)
    (different : key ≠ other) : childOf (assignChild s key c) other = childOf s other := by
  cases s with
  | none => rfl
  | some t =>
    cases t with
    | map fields => exact Dictionary.find?_assign_of_ne fields c different
    | list | null | bool | amount | text => rfl

/-- What agrees under a key, before and after something is put there, agrees then. -/
theorem agreeAt_childOf_assignChild {p : Path} {s u c d : Option Tree} {key : String}
    (faces : s.map face = u.map face) (before : AgreeAt p (childOf s key) (childOf u key))
    (put : AgreeAt p c d) :
    AgreeAt p (childOf (assignChild s key c) key) (childOf (assignChild u key d) key) := by
  match s, u, faces with
  | none, none, _ => exact before
  | some (.map fields), some u, faces =>
    obtain ⟨others, rfl⟩ := face_eq_map.1 (Option.some.inj faces).symm
    show AgreeAt p (Dictionary.find? (Dictionary.assign fields key c) key)
      (Dictionary.find? (Dictionary.assign others key d) key)
    rw [Dictionary.find?_assign_self, Dictionary.find?_assign_self]
    exact put
  | some (.list _), some u, faces | some .null, some u, faces | some (.bool _), some u, faces
  | some (.amount _), some u, faces | some (.text _), some u, faces =>
    cases u with
    | map others => cases faces
    | list | null | bool | amount | text => exact before

end Tree

/-! ## Writes on a path and beside it -/

namespace Schedule

open TableMotion.Tree

variable {p q : Path} {s u : Option Tree}

/-- A write on a path, above it or under it acts alike on trees that agree there. -/
theorem AgreeAt.putBelow (h : AgreeAt p s u) (hs : PlainSlot s) (hu : PlainSlot u)
    (bears : q.covers p = true ∨ p.covers q = true) (v : Option Tree) :
    AgreeAt p (putBelow s q v) (putBelow u q v) := by
  induction p generalizing s u q with
  | nil =>
    cases (h : s = u)
    rfl
  | cons key p ih =>
    cases q with
    | nil =>
      rw [putBelow_root, putBelow_root]
      exact AgreeAt.refl _ v
    | cons other q =>
      obtain ⟨rfl, bearsBelow⟩ :
          other = key ∧ (Path.covers q p = true ∨ Path.covers p q = true) := by
        simp only [Path.covers, List.isPrefixOf_cons_cons, Bool.and_eq_true, beq_iff_eq] at bears
        rcases bears with ⟨same, covers⟩ | ⟨same, covers⟩
        · exact ⟨same, Or.inl covers⟩
        · exact ⟨same.symm, Or.inr covers⟩
      rw [putBelow_cons hs, putBelow_cons hu]
      constructor
      · rw [map_face_assignChild, map_face_assignChild, h.1]
      · exact agreeAt_childOf_assignChild h.1 h.2
          (ih h.2 (hs.childOf other) (hu.childOf other) bearsBelow)

/-- A write beside a path changes nothing there. -/
theorem agreeAt_putBelow (hs : PlainSlot s) (hqp : q.covers p = false) (hpq : p.covers q = false)
    (v : Option Tree) : AgreeAt p (putBelow s q v) s := by
  induction p generalizing s q with
  | nil => cases hpq
  | cons key p ih =>
    cases q with
    | nil => cases hqp
    | cons other q =>
      rw [putBelow_cons hs]
      refine ⟨map_face_assignChild .., ?_⟩
      by_cases same : other = key
      · subst same
        have apart : Path.covers q p = false := by simpa [Path.covers] using hqp
        have apart' : Path.covers p q = false := by simpa [Path.covers] using hpq
        have below := ih (hs.childOf other) apart apart'
        cases s with
        | none => exact AgreeAt.refl p _
        | some t =>
          cases t with
          | map fields =>
            show AgreeAt p (Dictionary.find? (Dictionary.assign fields other _) other) _
            rw [Dictionary.find?_assign_self]
            exact below
          | list | null | bool | amount | text => exact AgreeAt.refl p _
      · rw [childOf_assignChild_of_ne _ _ same]
        exact AgreeAt.refl p _

theorem bearsOn_iff {r : Transition} :
    bearsOn p r = true ↔ r.path.covers p = true ∨ p.covers r.path = true := by
  simp [bearsOn]

/-- The writes that do not bear on a path can be left out there. -/
theorem AgreeAt.writeAll {value : Transition → Option Tree} {rs : List Transition}
    (plain : PlainValues value rs) (h : AgreeAt p s u) (hs : PlainSlot s) (hu : PlainSlot u) :
    AgreeAt p (writeAll value s (rs.filter (bearsOn p))) (writeAll value u rs) := by
  induction rs generalizing s u with
  | nil => exact h
  | cons r rs ih =>
    have written := hu.putBelow plain.head r.path
    by_cases bears : bearsOn p r = true
    · rw [List.filter_cons_of_pos bears]
      exact ih plain.tail (AgreeAt.putBelow h hs hu (bearsOn_iff.1 bears) _)
        (hs.putBelow plain.head r.path) written
    · rw [List.filter_cons_of_neg bears]
      simp only [bearsOn_iff, not_or, Bool.not_eq_true] at bears
      have beside := agreeAt_putBelow hu bears.1 bears.2 (value r)
      exact ih plain.tail (h.trans beside.symm) hs written

end Schedule

/-! ## Leaving out what lies beside a path -/

namespace Frame

open Schedule

variable {time : Binary64} {p : Path}

theorem addWinner_of_before {r : Transition} {ws : List Transition}
    (first : ∀ w ∈ ws, r.path.Before w.path) : addWinner time r ws = r :: ws := by
  cases ws with
  | nil => rfl
  | cons w ws =>
    have less : Path.compare r.path w.path = .lt := first w List.mem_cons_self
    simp [addWinner, less]

/-- Each path has its own winner, so the winners on other paths can be left out. -/
theorem filter_addWinner {keep : Path → Bool} {r : Transition} {ws : List Transition}
    (ordered : PathOrdered ws) :
    (addWinner time r ws).filter (fun x => keep x.path) =
      if keep r.path then addWinner time r (ws.filter fun x => keep x.path)
      else ws.filter fun x => keep x.path := by
  induction ordered with
  | nil => cases h : keep r.path <;> simp [addWinner, h]
  | @cons w ws before ordered ih =>
    cases order : Path.compare r.path w.path with
    | lt =>
      have added : addWinner time r (w :: ws) = r :: w :: ws := by simp [addWinner, order]
      have first : ∀ x ∈ (w :: ws).filter (fun x => keep x.path), r.path.Before x.path := by
        intro x hx
        rcases List.mem_cons.1 (List.mem_filter.1 hx).1 with rfl | hx
        · exact order
        · exact Path.Before.trans order (before x hx)
      rw [added, List.filter_cons, addWinner_of_before first]
    | eq =>
      -- the old winner of the path and the new one are kept or left out together
      have same := Path.compare_eq_iff.1 order
      have added : addWinner time r (w :: ws) =
          (if r.prevailsAt w time then r else w) :: ws := by simp [addWinner, order]
      rw [added]
      cases h : keep r.path <;> cases prevails : r.prevailsAt w time <;>
        simp [addWinner, order, prevails, h, same ▸ h]
    | gt =>
      cases h : keep w.path <;> cases k : keep r.path <;>
        simp [h, k, ih, addWinner, order]

theorem winners_filter (keep : Path → Bool) (rs : List Transition) :
    winners time (rs.filter fun r => keep r.path) =
      (winners time rs).filter fun r => keep r.path := by
  induction rs using List.reverseRecOn with
  | nil => rfl
  | append_singleton rs r ih =>
    rw [winners_snoc, filter_addWinner (pathOrdered_winners time rs), List.filter_append, ← ih]
    cases h : keep r.path <;> simp [h, winners_snoc]

/-- What lies above something that bears on a path bears on it too. -/
theorem bearsOn_of_isAbove {w r : Transition} (above : w.path.isAbove r.path = true)
    (bears : bearsOn p r = true) : bearsOn p w = true := by
  have covers := Path.covers_of_isAbove above
  rw [bearsOn_iff] at bears ⊢
  rcases bears with overPath | underPath
  · exact Or.inl (Path.covers_trans covers overPath)
  · exact Path.covers_or_covers covers underPath

/-- Nothing beside a path hides what bears on it. -/
theorem isHidden_filter {ws : List Transition} {r : Transition} (bears : bearsOn p r = true) :
    isHidden time (ws.filter (bearsOn p)) r = isHidden time ws r := by
  rw [Bool.eq_iff_iff, isHidden_iff, isHidden_iff]
  constructor
  · rintro ⟨w, hw, hides⟩
    exact ⟨w, (List.mem_filter.1 hw).1, hides⟩
  · rintro ⟨w, hw, above, prevails⟩
    exact ⟨w, List.mem_filter.2 ⟨hw, bearsOn_of_isAbove above bears⟩, above, prevails⟩

theorem shown_filter (rs : List Transition) :
    shown time (rs.filter (bearsOn p)) = (shown time rs).filter (bearsOn p) := by
  have same : winners time (rs.filter (bearsOn p)) = (winners time rs).filter (bearsOn p) :=
    winners_filter (fun q => q.covers p || p.covers q) rs
  rw [shown, shown, same, List.filter_filter, List.filter_filter]
  apply List.filter_congr
  intro r _
  by_cases bears : bearsOn p r = true
  · rw [isHidden_filter bears, Bool.and_comm]
  · simp only [Bool.not_eq_true] at bears
    simp [bears]

theorem inWriteOrder_filter (keep : Transition → Bool) (rs : List Transition) :
    inWriteOrder time (rs.filter keep) = (inWriteOrder time rs).filter keep := by
  simp [inWriteOrder, List.filter_filter, Bool.and_comm, ← List.filter_reverse]

end Frame

namespace Schedule

open TableMotion.Tree TableMotion.Frame

/-- Without lists the node drawn from the transitions that bear on a path is the one that the whole
frame shows there. -/
theorem valueAt_eq_get?_frameAt (s : Schedule) (p : Path) (time : Binary64)
    (plain : ∀ r ∈ s.transitions, r.PlainEnds) :
    s.valueAt p time = (s.frameAt time).get? p := by
  have plainShown : PlainValues (·.valueAt time)
      (inWriteOrder time (shown time s.transitions)) := by
    intro r hr
    exact (plain r (mem_of_mem_inWriteOrder hr)).valueAt time
  have agree := AgreeAt.writeAll plainShown (AgreeAt.refl p none) slot_none slot_none
  rw [← inWriteOrder_filter, ← shown_filter] at agree
  rw [valueAt, frameAt, Frame.get?, Frame.get?, root_ofTransitions, root_ofTransitions]
  exact agree.get?_eq

/-- A pot half way to its end, under a table that a newer transition has replaced, beside a seat
whose transition carries the same number. -/
theorem valueAt_eq_get?_frameAt_pot :
    let transition (id : Nat) (path : Path) (start finish : Option Tree) (time : Binary64) :
        Transition :=
      { id, path, presentation := .become, start, finish, startTime := time, endTime := time + 10
        duration := 10, easing := .linear, switchPoint := Binary64.half, source := none
        joining := .chain }
    let table : Tree := .map [("pot", .amount (.ofInt 2)), ("seat", .text "ada")]
    let s : Schedule := ⟨[transition 1 ["table", "seat"] none (some (.text "bob")) 60,
      transition 0 [] none (some (.map [("table", .null)])) 20,
      transition 1 ["table", "pot"] (some (.amount (.ofInt 4))) (some (.amount (.ofInt 8))) 60,
      transition 2 ["table"] none (some table) 40], 3, 0, 0⟩
    s.valueAt ["table", "pot"] 65 = some (.amount (.ofInt 6)) ∧
      s.valueAt ["table", "pot"] 65 = (s.frameAt 65).get? ["table", "pot"] := by
  intro transition table s
  have plain : ∀ r ∈ s.transitions, r.PlainEnds := by decide
  exact ⟨by decide +kernel, valueAt_eq_get?_frameAt s ["table", "pot"] 65 plain⟩

end Schedule

end TableMotion
