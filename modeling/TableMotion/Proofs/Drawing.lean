import Mathlib.Data.List.Induction
import TableMotion.Frame
import TableMotion.Proofs.PathOrder
import TableMotion.Proofs.Values
import TableMotion.Proofs.WriteOrder

/-!
# What a frame draws

A frame picks one transition for each path, leaves out those under a newer one, writes the rest in
the order of their paths and puts removals off to the end. Once a root has started, the picked ones
are those that no newer started one covers (`mem_shown`), and without lists the frame is what the
started transitions write from the oldest to the newest (`root_frameAt_eq_writeAll`).
-/

namespace TableMotion

namespace Frame

open TableMotion.Tree Schedule

variable {time : Binary64}

/-! ## The transition that counts on a path -/

/-- The paths of the listing go up. -/
def PathOrdered (ws : List Transition) : Prop := ws.Pairwise fun a b => a.path.Before b.path

theorem PathOrdered.eq_of_path {ws : List Transition} (h : PathOrdered ws) {a b : Transition}
    (ha : a ∈ ws) (hb : b ∈ ws) (same : a.path = b.path) : a = b := by
  induction h with
  | nil => cases ha
  | @cons w rest before _ ih =>
    rcases List.mem_cons.1 ha with rfl | ha'
    · rcases List.mem_cons.1 hb with rfl | hb'
      · rfl
      · exact absurd same (before b hb').ne
    · rcases List.mem_cons.1 hb with rfl | hb'
      · exact absurd same.symm (before a ha').ne
      · exact ih ha' hb'

theorem mem_addWinner {r x : Transition} {ws : List Transition}
    (h : x ∈ addWinner time r ws) : x = r ∨ x ∈ ws := by
  induction ws with
  | nil => exact Or.inl (List.mem_singleton.1 h)
  | cons w ws ih =>
    unfold addWinner at h
    split at h
    · exact List.mem_cons.1 h
    · rcases List.mem_cons.1 h with rfl | h
      · split
        · exact Or.inl rfl
        · exact Or.inr List.mem_cons_self
      · exact Or.inr (List.mem_cons_of_mem w h)
    · rcases List.mem_cons.1 h with rfl | h
      · exact Or.inr List.mem_cons_self
      · exact (ih h).imp id (List.mem_cons_of_mem w)

theorem PathOrdered.addWinner {ws : List Transition} (h : PathOrdered ws) (r : Transition) :
    PathOrdered (addWinner time r ws) := by
  induction h with
  | nil => exact List.pairwise_singleton ..
  | @cons w rest before ordered ih =>
    unfold Frame.addWinner
    split
    · rename_i less
      refine List.pairwise_cons.2 ⟨fun x hx => ?_, List.pairwise_cons.2 ⟨before, ordered⟩⟩
      rcases List.mem_cons.1 hx with rfl | hx
      · exact less
      · exact Path.Before.trans less (before x hx)
    · -- the winner of the path changes, the path does not
      rename_i equal
      have same := Path.compare_eq_iff.1 equal
      refine List.pairwise_cons.2 ⟨fun x hx => ?_, ordered⟩
      split
      · rw [same]
        exact before x hx
      · exact before x hx
    · rename_i greater
      refine List.pairwise_cons.2 ⟨fun x hx => ?_, ih⟩
      rcases mem_addWinner hx with rfl | hx
      · exact Path.compare_gt_iff.1 greater
      · exact before x hx

/-- `w` is drawn rather than `x`, or it is `x`. -/
def Beats (time : Binary64) (w x : Transition) : Prop := w = x ∨ w.prevailsAt x time = true

theorem Beats.refl (r : Transition) : Beats time r r := Or.inl rfl

theorem Beats.trans {a b c : Transition} (h : Beats time a b) (k : Beats time b c) :
    Beats time a c := by
  rcases h with rfl | h
  · exact k
  · rcases k with rfl | k
    · exact Or.inr h
    · exact Or.inr (Transition.prevailsAt_trans h k)

theorem Beats.antisymm {a b : Transition} (h : Beats time a b) (k : Beats time b a) : a = b := by
  rcases h with same | h
  · exact same
  · rcases k with same | k
    · exact same.symm
    · rw [Transition.not_prevailsAt_of_prevailsAt h] at k
      cases k

theorem beats_of_not_prevailsAt {r w : Transition} (different : r.id ≠ w.id)
    (h : ¬ r.prevailsAt w time = true) : Beats time w r :=
  Or.inr ((Transition.prevailsAt_or_prevailsAt different time).resolve_left h)

/-- Of two transitions on a path the one that stays beats both. -/
theorem beaten_addWinner (time : Binary64) {r : Transition} {ws : List Transition}
    (different : ∀ w ∈ ws, r.id ≠ w.id) :
    ∀ x ∈ r :: ws, ∃ w ∈ addWinner time r ws, w.path = x.path ∧ Beats time w x := by
  induction ws with
  | nil =>
    intro x hx
    rw [List.mem_singleton.1 hx]
    exact ⟨r, List.mem_singleton_self r, rfl, Beats.refl r⟩
  | cons w ws ih =>
    intro x hx
    unfold addWinner
    split
    · exact ⟨x, hx, rfl, Beats.refl x⟩
    · rename_i equal
      have same := Path.compare_eq_iff.1 equal
      by_cases prevails : r.prevailsAt w time = true
      · rw [if_pos prevails]
        rcases List.mem_cons.1 hx with rfl | hx
        · exact ⟨x, List.mem_cons_self, rfl, Beats.refl x⟩
        · rcases List.mem_cons.1 hx with rfl | hx
          · exact ⟨r, List.mem_cons_self, same, Or.inr prevails⟩
          · exact ⟨x, List.mem_cons_of_mem r hx, rfl, Beats.refl x⟩
      · rw [if_neg prevails]
        rcases List.mem_cons.1 hx with rfl | hx
        · have beats := beats_of_not_prevailsAt (different w List.mem_cons_self) prevails
          exact ⟨w, List.mem_cons_self, same.symm, beats⟩
        · exact ⟨x, hx, rfl, Beats.refl x⟩
    · have later := ih fun y hy => different y (List.mem_cons_of_mem w hy)
      rcases List.mem_cons.1 hx with rfl | hx
      · obtain ⟨y, hy, found⟩ := later x List.mem_cons_self
        exact ⟨y, List.mem_cons_of_mem w hy, found⟩
      · rcases List.mem_cons.1 hx with rfl | hx
        · exact ⟨x, List.mem_cons_self, rfl, Beats.refl x⟩
        · obtain ⟨y, hy, found⟩ := later x (List.mem_cons_of_mem r hx)
          exact ⟨y, List.mem_cons_of_mem w hy, found⟩

theorem winners_snoc (time : Binary64) (rs : List Transition) (r : Transition) :
    winners time (rs ++ [r]) = addWinner time r (winners time rs) := by
  simp [winners]

theorem mem_winners {rs : List Transition} {x : Transition} (h : x ∈ winners time rs) :
    x ∈ rs := by
  induction rs using List.reverseRecOn with
  | nil => cases h
  | append_singleton rs r ih =>
    rw [winners_snoc] at h
    rcases mem_addWinner h with rfl | h
    · exact List.mem_append_right rs List.mem_cons_self
    · exact List.mem_append_left [r] (ih h)

theorem pathOrdered_winners (time : Binary64) (rs : List Transition) :
    PathOrdered (winners time rs) := by
  induction rs using List.reverseRecOn with
  | nil => exact List.Pairwise.nil
  | append_singleton rs r ih =>
    rw [winners_snoc]
    exact ih.addWinner r

/-- On each path stands one that beats all others there. -/
theorem beaten_winners (time : Binary64) {rs : List Transition} (distinct : DistinctIds rs) :
    ∀ x ∈ rs, ∃ w ∈ winners time rs, w.path = x.path ∧ Beats time w x := by
  induction rs using List.reverseRecOn with
  | nil => intro x hx; cases hx
  | append_singleton rs r ih =>
    obtain ⟨former, -, apart⟩ := List.pairwise_append.1 distinct
    have different : ∀ w ∈ winners time rs, r.id ≠ w.id := by
      intro w hw
      exact Ne.symm (apart w (mem_winners hw) r List.mem_cons_self)
    have step := beaten_addWinner time different
    intro x hx
    rw [winners_snoc]
    rcases List.mem_append.1 hx with hx | hx
    · obtain ⟨w, hw, same, beats⟩ := ih former x hx
      obtain ⟨v, hv, same', beats'⟩ := step w (List.mem_cons_of_mem r hw)
      exact ⟨v, hv, same'.trans same, beats'.trans beats⟩
    · rw [List.mem_singleton.1 hx]
      exact step r List.mem_cons_self

/-- The one that counts on a path is the one that beats all others there. -/
theorem mem_winners_iff {rs : List Transition} (distinct : DistinctIds rs) {w : Transition} :
    w ∈ winners time rs ↔ w ∈ rs ∧ ∀ x ∈ rs, x.path = w.path → Beats time w x := by
  have ordered := pathOrdered_winners time rs
  constructor
  · intro hw
    refine ⟨mem_winners hw, fun x hx same => ?_⟩
    obtain ⟨v, hv, samePath, beats⟩ := beaten_winners time distinct x hx
    rwa [ordered.eq_of_path hw hv (samePath.trans same).symm]
  · rintro ⟨hw, best⟩
    obtain ⟨v, hv, same, beats⟩ := beaten_winners time distinct w hw
    rwa [(best v (mem_winners hv) same).antisymm beats]

/-- If `r` has started, `w` has too and is not older. -/
def Outlasts (time : Binary64) (w r : Transition) : Prop :=
  r.startTime ≤ time → w.startTime ≤ time ∧ (w = r ∨ r.Older w)

theorem Beats.outlasts {w r : Transition} (h : Beats time w r) : Outlasts time w r := by
  intro started
  rcases h with rfl | prevails
  · exact ⟨started, Or.inl rfl⟩
  · obtain ⟨startedW, older⟩ := (Transition.prevailsAt_iff_of_started started).1 prevails
    exact ⟨startedW, Or.inr older⟩

/-- On each path stands one that outlasts all others there. -/
theorem outlasted_winners (time : Binary64) {rs : List Transition} (distinct : DistinctIds rs) :
    ∀ x ∈ rs, ∃ w ∈ winners time rs, w.path = x.path ∧ Outlasts time w x := by
  intro x hx
  obtain ⟨w, hw, same, beats⟩ := beaten_winners time distinct x hx
  exact ⟨w, hw, same, beats.outlasts⟩

/-! ## The transitions that are shown -/

/-- The transitions that count and are not hidden, in the order of their paths. -/
def shown (time : Binary64) (rs : List Transition) : List Transition :=
  (winners time rs).filter fun r => !isHidden time (winners time rs) r

theorem mem_of_mem_shown {rs : List Transition} {r : Transition} (h : r ∈ shown time rs) : r ∈ rs :=
  mem_winners (List.mem_filter.1 h).1

theorem isHidden_iff {ws : List Transition} {r : Transition} :
    isHidden time ws r = true ↔
      ∃ w ∈ ws, w.path.isAbove r.path = true ∧ w.prevailsAt r time = true := by
  simp [isHidden]

/-- A root that has started is drawn rather than anything that has not. -/
theorem started_of_mem_shown {rs : List Transition} (distinct : DistinctIds rs)
    (root : ∃ b ∈ rs, b.path = Path.root ∧ b.startTime ≤ time) {r : Transition}
    (h : r ∈ shown time rs) : r.startTime ≤ time := by
  obtain ⟨member, free⟩ := List.mem_filter.1 h
  obtain ⟨b, hb, atRoot, startedB⟩ := root
  obtain ⟨w, hw, sameAsB, outlasts⟩ := outlasted_winners time distinct b hb
  have startedW := (outlasts startedB).1
  apply Decidable.byContradiction
  intro notStarted
  have atRootW : w.path = Path.root := sameAsB.trans atRoot
  -- the winner at the root has started, so a transition that has not is hidden or is that winner
  rcases hp : r.path with _ | ⟨key, rest⟩
  · have same : r = w :=
      (pathOrdered_winners time rs).eq_of_path member hw (hp.trans atRootW.symm)
    exact notStarted (same ▸ startedW)
  · have above : w.path.isAbove r.path = true :=
      Path.isAbove_iff.2 ⟨key, rest, by rw [atRootW, hp]; rfl⟩
    have prevails : w.prevailsAt r time = true := by
      simp [Transition.prevailsAt, startedW, notStarted]
    have hidden := isHidden_iff.2 ⟨w, hw, above, prevails⟩
    simp [hidden] at free

/-- What is drawn lies under nothing newer that has started. -/
theorem not_covers_of_mem_shown {rs : List Transition} (distinct : DistinctIds rs)
    {r x : Transition} (h : r ∈ shown time rs) (started : r.startTime ≤ time) (hx : x ∈ rs)
    (startedX : x.startTime ≤ time) (older : r.Older x) : x.path.covers r.path = false := by
  obtain ⟨member, free⟩ := List.mem_filter.1 h
  obtain ⟨w, hw, samePath, outlasts⟩ := outlasted_winners time distinct x hx
  obtain ⟨startedW, newer⟩ := outlasts startedX
  have olderW : r.Older w := by
    rcases newer with rfl | newer
    · exact older
    · exact older.trans newer
  -- the winner on the path of a newer one would have replaced or hidden `r`
  by_contra covered
  rw [Bool.not_eq_false, Path.covers_iff_eq_or_isAbove, ← samePath] at covered
  rcases covered with same | above
  · have := (pathOrdered_winners time rs).eq_of_path hw member same
    exact Transition.Older.irrefl r (this ▸ olderW)
  · have prevails := (Transition.prevailsAt_iff_of_started started).2 ⟨startedW, olderW⟩
    have hidden := isHidden_iff.2 ⟨w, hw, above, prevails⟩
    simp [hidden] at free

/-- Once a root has started, the shown transitions are the started ones that no newer started one
covers. -/
theorem mem_shown {rs : List Transition} (distinct : DistinctIds rs)
    (root : ∃ b ∈ rs, b.path = Path.root ∧ b.startTime ≤ time) {r : Transition} :
    r ∈ shown time rs ↔ (r ∈ rs ∧ r.startTime ≤ time) ∧
      ∀ x ∈ rs, x.startTime ≤ time → r.Older x → x.path.covers r.path = false := by
  constructor
  · intro h
    have started := started_of_mem_shown distinct root h
    refine ⟨⟨mem_of_mem_shown h, started⟩, ?_⟩
    intro x hx startedX older
    exact not_covers_of_mem_shown distinct h started hx startedX older
  · rintro ⟨⟨member, started⟩, newest⟩
    obtain ⟨w, hw, samePath, outlasts⟩ := outlasted_winners time distinct r member
    obtain ⟨startedW, newer⟩ := outlasts started
    have itself : w = r := by
      rcases newer with same | newer
      · exact same
      · have covers := Path.covers_iff_eq_or_isAbove.2 (Or.inl samePath)
        rw [newest w (mem_winners hw) startedW newer] at covers
        cases covers
    refine List.mem_filter.2 ⟨itself ▸ hw, ?_⟩
    rw [Bool.not_eq_true', ← Bool.not_eq_true, isHidden_iff]
    rintro ⟨v, hv, above, prevails⟩
    obtain ⟨startedV, older⟩ := (Transition.prevailsAt_iff_of_started started).1 prevails
    have covers := Path.covers_of_isAbove above
    rw [newest v (mem_winners hv) startedV older] at covers
    cases covers

theorem pathOrdered_shown (time : Binary64) (rs : List Transition) :
    PathOrdered (shown time rs) := (pathOrdered_winners time rs).filter _

/-! ## Which transitions are shown together -/

theorem PathOrdered.ext {ws us : List Transition} (hw : PathOrdered ws) (hu : PathOrdered us)
    (same : ∀ r, r ∈ ws ↔ r ∈ us) : ws = us := by
  have apart : ∀ {xs : List Transition}, PathOrdered xs → xs.Nodup := fun ordered =>
    ordered.imp fun before equal => before.ne (congrArg (·.path) equal)
  have perm := (List.perm_ext_iff_of_nodup (apart hw) (apart hu)).2 same
  exact List.Perm.eq_of_pairwise (fun a b _ _ before after => absurd after before.asymm) hw hu perm

/-- Once all transitions have started, the same ones are shown. -/
theorem shown_eq_of_started {other : Binary64} {rs : List Transition} (distinct : DistinctIds rs)
    (root : ∃ b ∈ rs, b.path = Path.root) (started : ∀ r ∈ rs, r.startTime ≤ time)
    (startedOther : ∀ r ∈ rs, r.startTime ≤ other) : shown time rs = shown other rs := by
  obtain ⟨b, hb, atRoot⟩ := root
  apply (pathOrdered_shown time rs).ext (pathOrdered_shown other rs)
  intro r
  rw [mem_shown distinct ⟨b, hb, atRoot, started b hb⟩,
    mem_shown distinct ⟨b, hb, atRoot, startedOther b hb⟩]
  constructor
  · rintro ⟨⟨hr, -⟩, newest⟩
    exact ⟨⟨hr, startedOther r hr⟩, fun x hx _ => newest x hx (started x hx)⟩
  · rintro ⟨⟨hr, -⟩, newest⟩
    exact ⟨⟨hr, started r hr⟩, fun x hx _ => newest x hx (startedOther x hx)⟩

theorem winners_of_first {b : Transition} {rs : List Transition} (atRoot : b.path = Path.root)
    (last : ∀ r ∈ rs, r.prevailsAt b time = false) :
    ∃ ws, winners time (b :: rs) = b :: ws ∧ ∀ w ∈ ws, w ∈ rs ∧ w.path ≠ Path.root := by
  induction rs using List.reverseRecOn with
  | nil => exact ⟨[], rfl, List.forall_mem_nil _⟩
  | append_singleton rs r ih =>
    obtain ⟨ws, won, below⟩ := ih fun x hx => last x (List.mem_append_left [r] hx)
    have loses := last r (List.mem_append_right rs List.mem_cons_self)
    rw [← List.cons_append, winners_snoc, won]
    cases path : r.path with
    | nil =>
      refine ⟨ws, ?_, fun w hw => ⟨List.mem_append_left [r] (below w hw).1, (below w hw).2⟩⟩
      have equal : Path.compare r.path b.path = .eq :=
        Path.compare_eq_iff.2 (path.trans atRoot.symm)
      simp [addWinner, equal, loses]
    | cons key p =>
      refine ⟨addWinner time r ws, ?_, fun w hw => ?_⟩
      · have after : Path.compare r.path b.path = .gt := by
          rw [Path.compare_gt_iff, path, atRoot]
          exact Path.before_of_isAbove (Path.isAbove_iff.2 ⟨key, p, rfl⟩)
        simp [addWinner, after]
      · rcases mem_addWinner hw with rfl | hw
        · exact ⟨List.mem_append_right rs List.mem_cons_self, by rw [path]; exact nofun⟩
        · exact ⟨List.mem_append_left [r] (below w hw).1, (below w hw).2⟩

/-- A root that prevails over all others is shown alone. -/
theorem shown_of_first {b : Transition} {rs : List Transition} (atRoot : b.path = Path.root)
    (first : ∀ r ∈ rs, b.prevailsAt r time = true)
    (last : ∀ r ∈ rs, r.prevailsAt b time = false) : shown time (b :: rs) = [b] := by
  obtain ⟨ws, won, below⟩ := winners_of_first atRoot last
  have stays : isHidden time (b :: ws) b = false := by
    rw [← Bool.not_eq_true, isHidden_iff]
    rintro ⟨w, -, above, -⟩
    obtain ⟨key, p, split⟩ := Path.isAbove_iff.1 above
    rw [atRoot] at split
    exact absurd (congrArg List.length split) (by simp [Path.root])
  have hidden : ∀ w ∈ ws, isHidden time (b :: ws) w = true := by
    intro w hw
    obtain ⟨member, notRoot⟩ := below w hw
    obtain ⟨key, p, split⟩ := List.exists_cons_of_ne_nil notRoot
    refine isHidden_iff.2 ⟨b, List.mem_cons_self, ?_, first w member⟩
    rw [atRoot, split]
    exact Path.isAbove_iff.2 ⟨key, p, rfl⟩
  rw [shown, won, List.filter_cons_of_pos (by simp [stays]), List.filter_eq_nil_iff.2]
  intro w hw
  simp [hidden w hw]

/-! ## The order of the writes -/

/-- Whether a transition is written at once; a removal below the root is put off. -/
def isWrite (time : Binary64) (r : Transition) : Bool :=
  r.path = Path.root || (r.valueAt time).isSome

/-- Transitions in the order in which a frame writes them. -/
def inWriteOrder (time : Binary64) (rs : List Transition) : List Transition :=
  rs.filter (isWrite time) ++ (rs.filter fun r => !isWrite time r).reverse

theorem draw_time (s : Frame × List Path) (r : Transition) : (draw s r).1.time = s.1.time := by
  obtain ⟨f, removals⟩ := s
  simp only [draw]
  split
  · rfl
  · split
    · rfl
    · rfl
    · split <;> rfl

/-- A write is made, a removal is kept for later. -/
theorem draw_spec (s : Frame × List Path) (r : Transition) :
    (isWrite s.1.time r = true ∧ (draw s r).2 = s.2 ∧
        (draw s r).1.root = putBelow s.1.root r.path (r.valueAt s.1.time)) ∨
      (isWrite s.1.time r = false ∧ (draw s r).2 = r.path :: s.2 ∧
        (draw s r).1.root = s.1.root) := by
  obtain ⟨f, removals⟩ := s
  rcases hp : r.path with _ | ⟨key, rest⟩
  · refine Or.inl ⟨?_, ?_, ?_⟩ <;> simp [isWrite, draw, hp, Path.root]
  · cases hv : r.valueAt f.time with
    | none => refine Or.inr ⟨?_, ?_, ?_⟩ <;> simp [isWrite, draw, hp, hv, Path.root]
    | some v =>
      refine Or.inl ⟨by simp [isWrite, hv], ?_, ?_⟩
      · cases hf : f.root with
        | none => simp [draw, hp, hv, hf, Path.root]
        | some t => cases hs : t.set (key :: rest) v <;> simp [draw, hp, hv, hf, hs, Path.root]
      · cases hf : f.root with
        | none => simp [draw, hp, hv, hf, Path.root]
        | some t =>
          rw [putBelow_some]
          cases hs : t.set (key :: rest) v <;> simp [draw, hp, hv, hf, hs, Path.root, Tree.put]

theorem foldl_draw_spec (rs : List Transition) (s : Frame × List Path) :
    (rs.foldl draw s).1.root =
        writeAll (·.valueAt s.1.time) s.1.root (rs.filter (isWrite s.1.time)) ∧
      (rs.foldl draw s).2 =
        ((rs.filter fun r => !isWrite s.1.time r).map (·.path)).reverse ++ s.2 := by
  induction rs generalizing s with
  | nil => exact ⟨rfl, rfl⟩
  | cons r rs ih =>
    rw [List.foldl_cons]
    obtain ⟨drawn, removals⟩ := ih (draw s r)
    rw [draw_time] at drawn removals
    rcases draw_spec s r with ⟨write, kept, made⟩ | ⟨write, put, same⟩
    · rw [kept] at removals
      rw [made] at drawn
      simp [write, drawn, removals]
    · rw [put] at removals
      rw [same] at drawn
      simp [write, drawn, removals]

theorem clear_root (f : Frame) {p : Path} (below : p ≠ Path.root) :
    (f.clear p).root = putBelow f.root p none := by
  obtain ⟨key, rest, rfl⟩ := List.exists_cons_of_ne_nil below
  cases hf : f.root with
  | none => simp [clear, hf]
  | some t =>
    rw [putBelow_some]
    cases hr : t.remove (key :: rest) <;> simp [clear, hf, hr, Tree.put, Except.map]

theorem foldl_clear_root (time : Binary64) (rs : List Transition) (f : Frame)
    (removals : ∀ r ∈ rs, isWrite time r = false) :
    ((rs.map (·.path)).foldl clear f).root = writeAll (·.valueAt time) f.root rs := by
  induction rs generalizing f with
  | nil => rfl
  | cons r rs ih =>
    have removal := removals r List.mem_cons_self
    simp only [isWrite, Bool.or_eq_false_iff, decide_eq_false_iff_not, Option.isSome_eq_false_iff,
      Option.isNone_iff_eq_none] at removal
    rw [List.map_cons, List.foldl_cons, ih _ fun x hx => removals x (List.mem_cons_of_mem r hx),
      clear_root f removal.1, writeAll_cons, removal.2]

/-- A frame is what the shown transitions write: first the values from above, then the removals
from below. -/
theorem root_ofTransitions (rs : List Transition) (time : Binary64) :
    (ofTransitions rs time).root =
      writeAll (·.valueAt time) none (inWriteOrder time (shown time rs)) := by
  have spec := foldl_draw_spec (shown time rs) (empty time, [])
  have split : (ofTransitions rs time).root =
      (((shown time rs).foldl draw (empty time, [])).2.foldl clear
        ((shown time rs).foldl draw (empty time, [])).1).root := rfl
  rw [split, spec.2, List.append_nil, ← List.map_reverse, foldl_clear_root time, spec.1,
    inWriteOrder, writeAll_append]
  · rfl
  · intro r hr
    exact Bool.not_eq_true' _ ▸ (List.mem_filter.1 (List.mem_reverse.1 hr)).2

/-- No write of a frame is made after one below it. -/
theorem pairwise_inWriteOrder {rs : List Transition} (h : PathOrdered rs) :
    (inWriteOrder time rs).Pairwise fun a b =>
      ¬ (b.path.isAbove a.path = true ∧ isWrite time b = true) := by
  refine List.pairwise_append.2 ⟨?_, ?_, ?_⟩
  · apply (h.filter _).imp
    rintro a b before ⟨above, -⟩
    exact before.asymm (Path.before_of_isAbove above)
  · refine List.Pairwise.imp_of_mem ?_ (List.pairwise_of_forall fun _ _ => trivial)
    rintro a b - hb - ⟨-, write⟩
    have removal := (List.mem_filter.1 (List.mem_reverse.1 hb)).2
    simp [write] at removal
  · rintro a - b hb ⟨-, write⟩
    have removal := (List.mem_filter.1 (List.mem_reverse.1 hb)).2
    simp [write] at removal

theorem inWriteOrder_perm (time : Binary64) (rs : List Transition) :
    (inWriteOrder time rs).Perm rs := by
  apply ((List.Perm.refl _).append (List.reverse_perm _)).trans
  exact List.filter_append_perm _ rs

theorem inWriteOrder_congr {other : Binary64} {ws : List Transition}
    (same : ∀ r ∈ ws, isWrite time r = isWrite other r) :
    inWriteOrder time ws = inWriteOrder other ws := by
  rw [inWriteOrder, inWriteOrder, List.filter_congr same,
    List.filter_congr fun r hr => congrArg not (same r hr)]

theorem mem_of_mem_inWriteOrder {rs : List Transition} {r : Transition}
    (h : r ∈ inWriteOrder time (shown time rs)) : r ∈ rs :=
  mem_of_mem_shown ((inWriteOrder_perm time _).mem_iff.1 h)

/-- What a frame writes can be read off anything that agrees with the values at its time. -/
theorem root_ofTransitions_of_values {rs : List Transition} {value : Transition → Option Tree}
    (values : ∀ r ∈ rs, r.valueAt time = value r) :
    (ofTransitions rs time).root = writeAll value none (inWriteOrder time (shown time rs)) := by
  rw [root_ofTransitions]
  exact writeAll_congr (fun r hr => values r (mem_of_mem_inWriteOrder hr)) none

/-- The transitions that have started, the oldest first. -/
def startedBy (time : Binary64) (rs : List Transition) : List Transition :=
  byPrecedence (rs.filter (·.startTime ≤ time))

theorem mem_startedBy {rs : List Transition} {r : Transition} :
    r ∈ startedBy time rs ↔ r ∈ rs ∧ r.startTime ≤ time := by
  simp [startedBy, mem_byPrecedence]

theorem pairwise_startedBy (time : Binary64) {rs : List Transition} (distinct : DistinctIds rs) :
    (startedBy time rs).Pairwise Transition.Older :=
  pairwise_byPrecedence (distinct.filter _)

/-- The shown transitions are the started ones that are not covered, in another order. -/
theorem shown_perm_uncovered {rs : List Transition} (distinct : DistinctIds rs)
    (root : ∃ b ∈ rs, b.path = Path.root ∧ b.startTime ≤ time) :
    (uncovered (startedBy time rs)).Perm (shown time rs) := by
  have ordered := pairwise_startedBy time distinct
  refine (List.perm_ext_iff_of_nodup ?_ ?_).2 fun r => ?_
  · apply (ordered.sublist (uncovered_sublist _)).imp
    rintro a b older rfl
    exact Transition.Older.irrefl a older
  · apply (pathOrdered_shown time rs).imp
    rintro a b before rfl
    exact Path.Before.irrefl a.path before
  · rw [mem_uncovered ordered, mem_shown distinct root, mem_startedBy]
    simp only [mem_startedBy, and_imp]

/-- A frame is what the started transitions write from the oldest to the newest. -/
theorem root_ofTransitions_eq_writeAll {rs : List Transition} (distinct : DistinctIds rs)
    (plain : PlainValues (·.valueAt time) (startedBy time rs))
    (root : ∃ b ∈ rs, b.path = Path.root ∧ b.startTime ≤ time) :
    (ofTransitions rs time).root = writeAll (·.valueAt time) none (startedBy time rs) := by
  have ordered := pairwise_startedBy time distinct
  have plainUncovered : PlainValues (·.valueAt time) (uncovered (startedBy time rs)) :=
    fun r hr => plain r ((uncovered_sublist _).subset hr)
  have perm := (shown_perm_uncovered distinct root).trans (inWriteOrder_perm time _).symm
  rw [root_ofTransitions, ← writeAll_uncovered plain slot_none]
  refine (writeAll_perm perm (ordered.sublist (uncovered_sublist _))
    (pairwise_inWriteOrder (pathOrdered_shown time rs)) plainUncovered ?_ slot_none).symm
  intro a ha b hb older late
  have notCovered := ((mem_uncovered ordered).1 ha).2 b ((uncovered_sublist _).subset hb) older
  -- only a removal is drawn later than an older one that it covers
  by_cases covers : a.path.covers b.path = true
  · rcases Path.covers_iff_eq_or_isAbove.1 covers with same | above
    · rw [Path.covers_iff_eq_or_isAbove.2 (Or.inl same.symm)] at notCovered
      cases notCovered
    · have removal : a.valueAt time = none := by
        have put : isWrite time a = false := by simpa [above] using late
        simp only [isWrite, Bool.or_eq_false_iff, Option.isSome_eq_false_iff] at put
        exact Option.isNone_iff_eq_none.1 put.2
      exact independent_of_removal (plainUncovered b hb) removal above
  · exact independent_of_apart (plainUncovered a ha) (plainUncovered b hb)
      (by simpa using covers) notCovered

end Frame

namespace Schedule

open TableMotion.Tree TableMotion.Frame

/-- Without lists the frame at a time is what the transitions that have started write, one after
another from the oldest to the newest, once a root is among them. -/
theorem root_frameAt_eq_writeAll (s : Schedule) (time : Binary64)
    (distinct : DistinctIds s.transitions) (plain : ∀ r ∈ s.transitions, r.PlainEnds)
    (root : ∃ b ∈ s.transitions, b.path = Path.root ∧ b.startTime ≤ time) :
    (s.frameAt time).root =
      writeAll (·.valueAt time) none
        (byPrecedence (s.transitions.filter (·.startTime ≤ time))) := by
  refine root_ofTransitions_eq_writeAll distinct ?_ root
  intro r hr
  exact (plain r (mem_startedBy.1 hr).1).valueAt time

/-- A removal above a later write, a write without a place and a transition that has not started,
all inserted out of order. -/
theorem root_frameAt_eq_writeAll_removed_seat :
    let transition (id : Nat) (path : Path) (start finish : Option Tree) (time : Binary64) :
        Transition :=
      { id, path, presentation := .become, start, finish, startTime := time, endTime := time + 10
        duration := 10, easing := .linear, switchPoint := Binary64.half, source := none
        joining := .chain }
    let table : Tree := .map [("pot", .text "none"), ("seats", .map [("1", .text "ada")])]
    let s : Schedule := ⟨[transition 3 ["seats", "1"] none (some (.text "bob")) 60,
      transition 0 [] (some table) (some table) 0,
      transition 1 ["seats"] (some (.text "gone")) none 20,
      transition 2 ["pot", "side"] none (some .null) 40,
      transition 4 ["pot"] none (some .null) 200], 5, 0, 0⟩
    (s.frameAt 100).root = some (.map [("pot", .text "none")]) ∧
      (s.frameAt 100).root =
        writeAll (·.valueAt 100) none
          (byPrecedence (s.transitions.filter (·.startTime ≤ 100))) := by
  intro transition table s
  have distinct : DistinctIds s.transitions := by decide
  have plain : ∀ r ∈ s.transitions, r.PlainEnds := by decide
  have root : ∃ b ∈ s.transitions, b.path = Path.root ∧ b.startTime ≤ 100 := by decide +kernel
  exact ⟨by decide +kernel, root_frameAt_eq_writeAll s 100 distinct plain root⟩

end Schedule

end TableMotion
