import TableMotion.Proofs.Mirroring
import TableMotion.Proofs.Moves
import TableMotion.Proofs.Tracking

/-!
# When a table keeps every item

A table without rules of its own gives all changes one duration, and its schedule mirrors its state
as long as no tick prunes a value that has no place. So its frames show its state after every part
of a run exactly when the run loses nothing (`showsState_iff_losesNothing`). Runs that lose items
are short: an item whose neighbour was replaced while it came in is pruned too early
(`showsState_iff_losesNothing_replaced_card`).
-/

namespace TableMotion

open TableMotion.Tree

namespace Schedule

variable {s : Schedule} {now lasting : Binary64} {state : Tree}

/-- Changes that lead from one state to another are mirrored one by one. -/
theorem Mirrors.insertAll (h : s.Mirrors now lasting state) {m : MotionRules}
    (noRules : m.rules = []) (finiteDuration : m.duration.isFinite = true)
    (lasts : cleanDuration m.duration = lasting) (finite : now.isFinite = true)
    (ends : (now + lasting).isFinite = true) {cs : List Change} {state' : Tree}
    (leads : Leads state cs state') (sides : ∀ c ∈ cs, HasSides Regular c) (source : Option Nat) :
    (cs.foldl (fun s c => s.insert c now (m.timingOf c) source) s).Mirrors now lasting state' := by
  refine leads.holds_foldl (Q := fun (s : Schedule) state => s.Mirrors now lasting state) ?_ h
  intro s state c state' hc mirrors step
  have noRule : m.ruleFor? c.path = none := by
    rw [MotionRules.ruleFor?, noRules]
    rfl
  have override : (m.timingOf c).joining = .override := by
    simp [MotionRules.timingOf, noRule]
  have duration : (m.timingOf c).duration = m.duration := by
    simp [MotionRules.timingOf, noRule]
  obtain ⟨old, new⟩ := sides c hc
  rw [← duration] at finiteDuration lasts
  exact mirrors.insert finite override finiteDuration lasts ends old new step source

end Schedule

/-- A message, if it is a tick to a finite time, leaves room for a duration from there on. -/
def Message.InRange (duration : Binary64) : Message → Prop
  | .tick step => step.time.isFinite = true →
      (step.time + Schedule.cleanDuration duration).isFinite = true
  | .gameState _ | .tournament _ | .chat _ | .notification _ | .unrecognized _ => True

instance (duration : Binary64) : (m : Message) → Decidable (m.InRange duration)
  | .tick _ => inferInstanceAs (Decidable (_ → _))
  | .gameState _ | .tournament _ | .chat _ | .notification _ | .unrecognized _ => isTrue trivial

namespace Table

open Schedule

/-! ## Runs that lose nothing -/

/-- A message prunes no value that has no place, if it is a tick that is accepted. -/
def Keeps (t : Table) : Message → Prop
  | .tick step => Clock.refusal? step.time step.former = none →
      t.schedule.losses (step.time - t.rules.pruneGrace) = []
  | .gameState _ | .tournament _ | .chat _ | .notification _ | .unrecognized _ => True

instance (t : Table) : (m : Message) → Decidable (t.Keeps m)
  | .tick _ => inferInstanceAs (Decidable (_ → _))
  | .gameState _ | .tournament _ | .chat _ | .notification _ | .unrecognized _ => isTrue trivial

/-- No tick of a run prunes a value that has no place. -/
def LosesNothing (t : Table) : List Message → Prop
  | [] => True
  | m :: ms => t.Keeps m ∧ LosesNothing (t.receive m).2.2 ms

instance decidableLosesNothing : (t : Table) → (ms : List Message) → Decidable (t.LosesNothing ms)
  | _, [] => isTrue trivial
  | t, m :: ms =>
    have := decidableLosesNothing (t.receive m).2.2 ms
    inferInstanceAs (Decidable (t.Keeps m ∧ LosesNothing (t.receive m).2.2 ms))

/-- The frames of a table are its state once what has an end is over, from its first update on. -/
def ShowsState (t : Table) : Prop :=
  0 < t.gameState.accepted → ∀ time : Binary64, 0 ≤ time → IsOverBy t.schedule.transitions time →
    (t.frameAt time).root = some t.gameState.tree

/-! ## One message -/

/-- What every message that keeps all values keeps. -/
structure Reflects (t : Table) (duration : Binary64) : Prop extends t.Ready where
  noRules : t.rules.rules = []
  duration_eq : t.rules.duration = duration
  finiteDuration : duration.isFinite = true
  inRange : (t.now + cleanDuration duration).isFinite = true
  regular : t.gameState.tree.Regular
  mirrors : t.gameState.loaded = true →
    t.schedule.Mirrors t.now (cleanDuration duration) t.gameState.tree

variable {t t' : Table} {m : Message} {duration : Binary64}

theorem reflects_start {rules : MotionRules} (noRules : rules.rules = [])
    (finite : rules.duration.isFinite = true) : (start rules).Reflects rules.duration where
  toReady := ready_start rules
  noRules := noRules
  duration_eq := rfl
  finiteDuration := finite
  inRange := Binary64.isFinite_zero_add (cleanDuration_isFinite finite)
    (cleanDuration_nonneg rules.duration)
  regular := Plain.regular ⟨trivial, rfl⟩
  mirrors := nofun

theorem Reflects.insertAll (h : t.Reflects duration) {state : Tree} (regular : state.Regular)
    (number : Nat)
    (mirrors : t.schedule.Mirrors t.now (cleanDuration duration) t.gameState.tree) :
    (t.insertAll number (Tree.changes t.gameState.tree state)).Mirrors t.now
      (cleanDuration duration) state := by
  have finite : t.rules.duration.isFinite = true := by
    rw [h.duration_eq]
    exact h.finiteDuration
  have lasts : cleanDuration t.rules.duration = cleanDuration duration := by rw [h.duration_eq]
  have leads := leads_changes _ _ h.regular regular
  have sides := hasSides_changes regular_ofParts _ _ h.regular regular
  exact mirrors.insertAll h.noRules finite lasts h.finite h.inRange leads sides _

theorem Reflects.move (h : t.Reflects duration) (brings : m.Brings Regular)
    (paced : t.IsPacedBy m) (inRange : m.InRange duration) (keeps : t.Keeps m)
    (move : Move t m t') : t'.Reflects duration := by
  have lasting : (cleanDuration duration).isFinite = true := cleanDuration_isFinite h.finiteDuration
  obtain ⟨regular, mirrors⟩ := h.holds_move
    (Q := fun s now state => s.Mirrors now (cleanDuration duration) state) regular_stable
    h.regular h.mirrors brings paced move
    (fun state source regular nothing => mirrors_startWith nothing regular source h.begun)
    (fun state number regular mirrors => h.insertAll regular number mirrors)
    (by
      rintro step rfl accepted later mirrors
      exact (mirrors.prune lasting (keeps accepted)).later later)
  refine
    { toReady := h.toReady.move paced move, noRules := ?_, duration_eq := ?_
      finiteDuration := h.finiteDuration, inRange := ?_, regular := regular, mirrors := mirrors }
  · rw [move.rules_eq]
    exact h.noRules
  · rw [move.rules_eq]
    exact h.duration_eq
  · cases move with
    | stay _ clock | update _ _ _ clock =>
      have now : t'.now = t.now := congrArg Clock.now clock
      rw [now]
      exact h.inRange
    | tick step finite _ _ now =>
      rw [now]
      exact inRange finite

theorem Reflects.showsState (h : t.Reflects duration) : t.ShowsState := by
  intro accepted time nonneg ended
  exact (h.mirrors (h.loaded.2 accepted)).root_frameAt ended nonneg

theorem receive_tick (t : Table) {step : Tick}
    (accepted : Clock.refusal? step.time step.former = none) :
    (t.receive (.tick step)).2.2.schedule = t.schedule.prune (step.time - t.rules.pruneGrace) ∧
      (t.receive (.tick step)).2.2.gameState = t.gameState := by
  simp [receive, Table.tick, Clock.tick, accepted, Table.prune, Schedule.prune, countSchedule]

/-- After a message that loses a value the frames are not the state. -/
theorem Reflects.not_showsState (h : t.Reflects duration) (loses : ¬ t.Keeps m) :
    ¬ (t.receive m).2.2.ShowsState := by
  cases m with
  | gameState | tournament | chat | notification | unrecognized => exact absurd trivial loses
  | tick step =>
    -- only a table that has taken an update has anything to lose
    simp only [Keeps, Classical.not_imp] at loses
    obtain ⟨accepted, something⟩ := loses
    obtain ⟨schedule, gameState⟩ := receive_tick t accepted
    have loaded : t.gameState.loaded = true := by
      rw [← Bool.not_eq_false]
      intro notLoaded
      rw [losses, h.waiting notLoaded] at something
      exact something rfl
    have mirrors := h.mirrors loaded
    intro shows
    -- at the end of time all is over
    have ended : IsOverBy (t.schedule.prune (step.time - t.rules.pruneGrace)).transitions
        (Binary64.infinity false) := fun _ _ finite => Binary64.lt_infinity finite
    obtain ⟨p, lacks⟩ := mirrors.lacks (cleanDuration_isFinite h.finiteDuration) something ended
      Binary64.zero_le_infinity
    have root := shows (by rw [gameState]; exact h.loaded.1 loaded) _ Binary64.zero_le_infinity
      (by rwa [schedule])
    have same : ((t.schedule.prune (step.time - t.rules.pruneGrace)).frameAt
        (Binary64.infinity false)).root = some t.gameState.tree := by
      rw [← schedule, ← gameState]
      exact root
    have present := lacks.present
    rw [← same, lacks.absent] at present
    cases present

/-! ## Runs -/

theorem Reflects.showsState_iff {ms : List Message} (h : t.Reflects duration)
    (brings : ∀ m ∈ ms, m.Brings Regular) (paced : t.Paced ms)
    (inRange : ∀ m ∈ ms, m.InRange duration) :
    (∀ ns, ns <+: ms → (t.receiveAll ns).2.ShowsState) ↔ t.LosesNothing ms := by
  induction ms generalizing t with
  | nil =>
    refine ⟨fun _ => trivial, ?_⟩
    intro _ ns part
    rw [List.prefix_nil.1 part]
    exact h.showsState
  | cons m ms ih =>
    obtain ⟨first, rest⟩ := paced
    have next : ∀ ns, (t.receiveAll (m :: ns)).2 = ((t.receive m).2.2.receiveAll ns).2 :=
      receiveAll_cons t m
    by_cases keeps : t.Keeps m
    · have reflects := h.move (brings m List.mem_cons_self) first (inRange m List.mem_cons_self)
        keeps (move_receive t m)
      have later := ih reflects (fun x hx => brings x (List.mem_cons_of_mem m hx)) rest
        fun x hx => inRange x (List.mem_cons_of_mem m hx)
      constructor
      · intro shows
        refine ⟨keeps, later.1 fun ns part => ?_⟩
        rw [← next]
        exact shows (m :: ns) ((List.prefix_cons_inj m).2 part)
      · rintro ⟨-, nothing⟩ ns part
        rcases List.prefix_cons_iff.1 part with rfl | ⟨others, rfl, rest⟩
        · exact h.showsState
        · rw [next]
          exact later.2 nothing others rest
    · -- the part that ends with this message already shows something else
      constructor
      · intro shows
        have after := shows [m] ((List.prefix_cons_inj m).2 List.nil_prefix)
        rw [next] at after
        exact absurd after (h.not_showsState keeps)
      · rintro ⟨impossible, -⟩
        exact absurd impossible keeps

/-- Of a table that gives all changes one duration, the frames show the state after every part of a
run exactly when no tick of the run prunes a value that has no place. -/
theorem showsState_iff_losesNothing {rules : MotionRules} (noRules : rules.rules = [])
    (finite : rules.duration.isFinite = true) {ms : List Message}
    (brings : ∀ m ∈ ms, m.Brings Regular) (paced : (start rules).Paced ms)
    (inRange : ∀ m ∈ ms, m.InRange rules.duration) :
    (∀ ns, ns <+: ms → ((start rules).receiveAll ns).2.ShowsState) ↔
      (start rules).LosesNothing ms :=
  (reflects_start noRules finite).showsState_iff brings paced inRange

/-- Three cards come in and the second is replaced before it is there. The last tick prunes the
first and the third card while the second is still on its way, so the third has no place. -/
theorem showsState_iff_losesNothing_replaced_card :
    let rules : MotionRules := { duration := 100, pruneGrace := 0 }
    let board (cards : List String) : Tree := .map [("board", .list (cards.map .text))]
    let ms : List Message := [
      .gameState ⟨some 1, board [], false⟩, .gameState ⟨some 2, board ["Qh", "Jd", "7c"], false⟩,
      .tick ⟨50, 0, none⟩, .gameState ⟨some 3, board ["Qh", "Ks", "7c"], false⟩]
    (∀ ns, ns <+: ms → ((start rules).receiveAll ns).2.ShowsState) ∧
      ¬ ((start rules).receiveAll (ms ++ [.tick ⟨120, 50, none⟩])).2.ShowsState := by
  intro rules board ms
  have finite : rules.duration.isFinite = true := by decide +kernel
  have brings : ∀ m ∈ ms ++ [.tick ⟨120, 50, none⟩], m.Brings Regular := by decide +kernel
  have paced : (start rules).Paced (ms ++ [.tick ⟨120, 50, none⟩]) := by decide +kernel
  have inRange : ∀ m ∈ ms ++ [.tick ⟨120, 50, none⟩], m.InRange rules.duration := by
    decide +kernel
  have pacedBefore : (start rules).Paced ms := by decide +kernel
  have keptBefore : (start rules).LosesNothing ms := by decide +kernel
  have lost : ¬ (start rules).LosesNothing (ms ++ [.tick ⟨120, 50, none⟩]) := by decide +kernel
  have before := (showsState_iff_losesNothing rfl finite
    (fun m hm => brings m (List.mem_append_left _ hm)) pacedBefore
    fun m hm => inRange m (List.mem_append_left _ hm)).2 keptBefore
  refine ⟨before, fun last => lost ?_⟩
  apply (showsState_iff_losesNothing rfl finite brings paced inRange).1
  intro ns part
  rcases List.prefix_concat_iff.1 part with rfl | part
  · exact last
  · exact before ns part

end Table

end TableMotion
