import TableMotion.Proofs.Receiving
import TableMotion.Stage

/-!
# Frames and deliveries

On a lawful engine a frame takes all messages that wait, in the order in which they were sent, with
the rules that it finds. So the number of frames over which messages are spread is seen in the
counters of drawing only (`calls_inFrames`). The rules that it finds are those held beside the table, unless these have
not been replaced since the first frame: what is put there before it never comes to the table
(`table_rules_runFrame_iff`).
-/

namespace TableMotion

/-! ## Drawing is not seen by messages -/

namespace Table

/-- A table with other counts of what it has drawn. -/
def withDrawn (t : Table) (frames skippedPaths : Nat) : Table :=
  { t with tally := { t.tally with frames, skippedPaths } }

/-- What a message does and what it reports do not depend on what was drawn before. -/
theorem receive_withDrawn (t : Table) (frames skippedPaths : Nat) (m : Message) :
    (t.withDrawn frames skippedPaths).receive m =
      ((t.receive m).1, (t.receive m).2.1, (t.receive m).2.2.withDrawn frames skippedPaths) := by
  cases brings : m.revision? with
  | some u =>
    have asBefore : (t.withDrawn frames skippedPaths).gameState = t.gameState := rfl
    rw [receive_update brings, receive_update brings, asBefore]
    cases t.gameState.stale? u.version u.patch <;> rfl
  | none =>
    cases m with
    | gameState | tournament => cases brings
    | tick step =>
      rw [receive_step, receive_step]
      cases Clock.refusal? step.time step.former <;> rfl
    | chat | notification | unrecognized => rfl

theorem receiveAll_withDrawn (t : Table) (frames skippedPaths : Nat) (ms : List Message) :
    ((t.withDrawn frames skippedPaths).receiveAll ms).2 =
      (t.receiveAll ms).2.withDrawn frames skippedPaths := by
  induction ms generalizing t with
  | nil => rfl
  | cons m ms ih => rw [receiveAll_cons, receiveAll_cons, receive_withDrawn, ih]

/-- Messages do not change the rules. -/
theorem rules_deliverAll {t t' : Table} {ms : List Message}
    (delivered : t.deliverAll ms = .ok t') : t'.rules = t.rules := by
  rw [eq_receiveAll_of_deliverAll delivered, receiveAll_rules]

end Table

namespace Stage

/-! ## What is done to a stage -/

/-- What can be done to a stage from outside. -/
inductive Call where
  | send (message : Message)
  | replaceRules (rules : MotionRules)
  | runFrame

variable {engine : Engine}

/-- Does one thing to a stage, unless it ends the program. -/
def call (s : Stage engine) : Call → Except TickError (Stage engine)
  | .send m => .ok (s.send m)
  | .replaceRules rules => .ok (s.replaceRules rules)
  | .runFrame => s.runFrame

/-- Does one thing after another, until one ends the program. -/
def calls (s : Stage engine) (cs : List Call) : Except TickError (Stage engine) :=
  cs.foldlM call s

/-- The rules that are held beside the table after some calls. -/
def heldAfter (rules : MotionRules) (cs : List Call) : MotionRules :=
  cs.foldl (fun held c => match c with
    | .replaceRules next => next
    | .send _ | .runFrame => held) rules

/-- The messages that were sent since the last frame. -/
def sentSince (cs : List Call) : List Message :=
  cs.foldl (fun sent c => match c with
    | .send m => sent ++ [m]
    | .replaceRules _ => sent
    | .runFrame => []) []

/-- Rules were replaced at some time after the first frame. -/
def ReplacedLate (cs : List Call) : Prop :=
  ∃ rules, [Call.runFrame, Call.replaceRules rules].Sublist cs

variable {s s' : Stage engine} {rules : MotionRules} {cs : List Call} {c : Call}

theorem calls_append (s : Stage engine) (cs ds : List Call) :
    s.calls (cs ++ ds) = (s.calls cs).bind (·.calls ds) := by
  simp only [calls, List.foldlM_append]
  rfl

theorem calls_snoc_eq_ok_iff :
    s.calls (cs ++ [c]) = .ok s' ↔ ∃ u, s.calls cs = .ok u ∧ u.call c = .ok s' := by
  rw [calls_append]
  cases s.calls cs with
  | error e => simp [Except.bind]
  | ok u =>
    have one : u.calls [c] = u.call c := by
      rw [calls, List.foldlM_cons]
      cases u.call c <;> rfl
    simp [Except.bind, one]

theorem heldAfter_snoc (rules : MotionRules) (cs : List Call) (c : Call) :
    heldAfter rules (cs ++ [c]) = match c with
      | .replaceRules next => next
      | .send _ | .runFrame => heldAfter rules cs := by
  simp [heldAfter]

theorem sentSince_snoc (cs : List Call) (c : Call) :
    sentSince (cs ++ [c]) = match c with
      | .send m => sentSince cs ++ [m]
      | .replaceRules _ => sentSince cs
      | .runFrame => [] := by
  simp [sentSince]

/-! ## One frame -/

/-- The rules with which the next frame works. -/
def nextRules (s : Stage engine) : MotionRules :=
  if engine.isChanged s.watch && !engine.isAdded s.watch then s.rules else s.table.rules

/-- The messages that wait for the next frame. -/
def waiting (s : Stage engine) : List Message := (engine.read s.inbox).1

/-- A stage whose table a frame has brought up to date. -/
def showing (s : Stage engine) (t : Table) : Stage engine :=
  { s with
    table := t.render.2, watch := engine.ran s.watch, inbox := (engine.read s.inbox).2
    published := t.frame, tally := t.render.2.tally }

theorem table_syncRules (s : Stage engine) : s.syncRules.table = s.table.setRules s.nextRules := by
  unfold syncRules nextRules
  cases engine.isChanged s.watch && !engine.isAdded s.watch <;> rfl

theorem foldlM_deliver (t : Table) (ms : List Message) :
    ms.foldlM (fun t m => (t.deliver m).map (·.2.2)) t = t.deliverAll ms := by
  induction ms generalizing t with
  | nil => rfl
  | cons m ms ih =>
    rw [List.foldlM_cons, Table.deliverAll]
    cases t.deliver m with
    | error e => rfl
    | ok answer => exact ih answer.2.2

/-- A frame hands the rules over, delivers what waits and shows what comes of it. -/
theorem runFrame_eq (lawful : engine.Lawful) (s : Stage engine) :
    s.runFrame = ((s.table.setRules s.nextRules).deliverAll s.waiting).map s.showing := by
  have taken : s.syncRules.takeInbox =
      ((s.table.setRules s.nextRules).deliverAll s.waiting).map fun t =>
        { s.syncRules with table := t, inbox := (engine.read s.inbox).2 } := by
    show (s.waiting.foldlM (fun t m => (t.deliver m).map (·.2.2)) s.syncRules.table >>= _) = _
    rw [foldlM_deliver, table_syncRules]
    cases (s.table.setRules s.nextRules).deliverAll s.waiting <;> rfl
  rw [runFrame, lawful.runChained_eq]
  show (s.syncRules.takeInbox >>= _) = _
  rw [taken]
  cases (s.table.setRules s.nextRules).deliverAll s.waiting <;> rfl

theorem runFrame_eq_ok_iff (lawful : engine.Lawful) :
    s.runFrame = .ok s' ↔
      ∃ t, (s.table.setRules s.nextRules).deliverAll s.waiting = .ok t ∧ s' = s.showing t := by
  rw [runFrame_eq lawful]
  cases (s.table.setRules s.nextRules).deliverAll s.waiting with
  | error e => simp [Except.map]
  | ok t => simp [Except.map, eq_comm]

theorem runFrame_of_tolerant (lawful : engine.Lawful) (tolerant : s.table.clock.fatal = false) :
    s.runFrame =
      .ok (s.showing ((s.table.setRules s.nextRules).receiveAll s.waiting).2) := by
  have tolerant' : (s.table.setRules s.nextRules).clock.fatal = false := tolerant
  rw [runFrame_eq lawful, Table.deliverAll_of_tolerant tolerant']
  rfl

/-! ## The rules of a run -/

theorem replacedLate_snoc :
    ReplacedLate (cs ++ [c]) ↔
      ReplacedLate cs ∨ Call.runFrame ∈ cs ∧ ∃ next, c = .replaceRules next := by
  -- turned round, the last call is the first, where a sublist can be taken apart
  have turned (ds : List Call) :
      ds.reverse.Sublist (c :: cs.reverse) ↔ ds.Sublist (cs ++ [c]) := by
    rw [← List.reverse_concat, List.reverse_sublist]
  constructor
  · rintro ⟨next, late⟩
    rcases List.sublist_cons_iff.1 ((turned _).2 late) with before | ⟨rest, atEnd, before⟩
    · exact Or.inl ⟨next, List.reverse_sublist.1 before⟩
    · obtain ⟨last, rfl⟩ := List.cons.inj atEnd
      exact Or.inr ⟨List.mem_reverse.1 (List.singleton_sublist.1 before), next, last.symm⟩
  · rintro (⟨next, late⟩ | ⟨framed, next, rfl⟩)
    · exact ⟨next, late.trans (List.sublist_append_left ..)⟩
    · exact ⟨next, (List.singleton_sublist.2 framed).append (List.Sublist.refl _)⟩

/-- What calls make of a stage: whether rules came in time for the table is decided by when they
were replaced. -/
structure Reached (rules : MotionRules) (cs : List Call) (s : Stage engine) : Prop where
  held : s.rules = heldAfter rules cs
  waiting : s.waiting = sentSince cs
  added : engine.isAdded s.watch = true ↔ Call.runFrame ∉ cs
  first : ¬ ReplacedLate cs → s.table.rules = rules
  late : ReplacedLate cs → engine.isChanged s.watch = true ∨ s.table.rules = s.rules
  changed : engine.isAdded s.watch = false → engine.isChanged s.watch = true → ReplacedLate cs

theorem reached_start (lawful : engine.Lawful) (rules : MotionRules) :
    Reached rules [] (start rules : Stage engine) where
  held := rfl
  waiting := lawful.read_quiet
  added := by simp [start, lawful.isAdded_inserted]
  first _ := rfl
  late := by simp [ReplacedLate]
  changed := by simp [start, lawful.isAdded_inserted]

theorem ReplacedLate.framed (late : ReplacedLate cs) : Call.runFrame ∈ cs := by
  obtain ⟨next, late⟩ := late
  exact late.subset List.mem_cons_self

/-- The next frame works with the rules held beside the table if these were replaced since the first
frame, and with those of the beginning otherwise. -/
theorem Reached.nextRules_eq (h : Reached rules cs s) :
    (ReplacedLate cs → s.nextRules = heldAfter rules cs) ∧
      (¬ ReplacedLate cs → s.nextRules = rules) := by
  unfold nextRules
  constructor
  · intro late
    have notAdded : engine.isAdded s.watch = false := by
      rw [← Bool.not_eq_true, h.added]
      exact fun absent => absent late.framed
    rw [← h.held, notAdded]
    cases changed : engine.isChanged s.watch with
    | true => rfl
    | false =>
      rcases h.late late with impossible | same
      · rw [changed] at impossible
        cases impossible
      · exact same
  · intro notLate
    split
    · rename_i handsOver
      simp only [Bool.and_eq_true, Bool.not_eq_true'] at handsOver
      exact absurd (h.changed handsOver.2 handsOver.1) notLate
    · exact h.first notLate

theorem Reached.send (lawful : engine.Lawful) (h : Reached rules cs s) (m : Message) :
    Reached rules (cs ++ [.send m]) (s.send m) := by
  have same : ReplacedLate (cs ++ [.send m]) ↔ ReplacedLate cs := by simp [replacedLate_snoc]
  constructor
  case held =>
    rw [heldAfter_snoc]
    exact h.held
  case waiting =>
    rw [sentSince_snoc]
    exact (lawful.read_send ..).trans (congrArg (· ++ [m]) h.waiting)
  case added => simpa [Stage.send] using h.added
  case first =>
    rw [same]
    exact h.first
  case late =>
    rw [same]
    exact h.late
  case changed =>
    rw [same]
    exact h.changed

theorem Reached.replaceRules (lawful : engine.Lawful) (h : Reached rules cs s)
    (next : MotionRules) :
    Reached rules (cs ++ [.replaceRules next]) (s.replaceRules next) := by
  constructor
  case held =>
    rw [heldAfter_snoc]
    rfl
  case waiting =>
    rw [sentSince_snoc]
    exact h.waiting
  case added => simpa [Stage.replaceRules, lawful.isAdded_mutated] using h.added
  case first =>
    intro notLate
    exact h.first fun late => notLate (replacedLate_snoc.2 (Or.inl late))
  case late => exact fun _ => Or.inl (lawful.isChanged_mutated _)
  case changed =>
    intro notAdded _
    replace notAdded : engine.isAdded s.watch = false := by
      rwa [Stage.replaceRules, lawful.isAdded_mutated] at notAdded
    have framed : Call.runFrame ∈ cs := by
      by_contra absent
      exact Bool.noConfusion (notAdded.symm.trans (h.added.2 absent))
    exact replacedLate_snoc.2 (Or.inr ⟨framed, next, rfl⟩)

theorem Reached.runFrame (lawful : engine.Lawful) (h : Reached rules cs s)
    (ran : s.runFrame = .ok s') :
    Reached rules (cs ++ [.runFrame]) s' := by
  have same : ReplacedLate (cs ++ [.runFrame]) ↔ ReplacedLate cs := by simp [replacedLate_snoc]
  obtain ⟨t, delivered, rfl⟩ := (runFrame_eq_ok_iff lawful).1 ran
  have used : t.rules = s.nextRules := Table.rules_deliverAll delivered
  constructor
  case held =>
    rw [heldAfter_snoc]
    exact h.held
  case waiting =>
    rw [sentSince_snoc]
    exact lawful.read_read _
  case added => simp [showing, lawful.isAdded_ran]
  case first =>
    intro notLate
    exact used.trans (h.nextRules_eq.2 fun late => notLate (same.2 late))
  case late =>
    intro late
    exact Or.inr (used.trans ((h.nextRules_eq.1 (same.1 late)).trans h.held.symm))
  case changed => simp [showing, lawful.isChanged_ran]

/-- Whatever is done to a fresh stage, what it holds and what its table works with is told by the
calls. -/
theorem reached_calls (lawful : engine.Lawful) (run : (start rules).calls cs = .ok s) :
    Reached rules cs s := by
  induction cs using List.reverseRecOn generalizing s with
  | nil =>
    cases run
    exact reached_start lawful rules
  | append_singleton cs c ih =>
    obtain ⟨u, before, last⟩ := calls_snoc_eq_ok_iff.1 run
    have reached := ih before
    cases c with
    | send m =>
      cases last
      exact reached.send lawful m
    | replaceRules next =>
      cases last
      exact reached.replaceRules lawful next
    | runFrame => exact reached.runFrame lawful last

/-- On a lawful engine a frame delivers what was sent since the last one under the rules that the
table is left with. These are the ones held beside it if rules were replaced after the first frame; otherwise they are
those of the beginning, and are the ones held beside it only if what was put there before the first
frame is the same. -/
theorem table_rules_runFrame_iff (lawful : engine.Lawful) (run : (start rules).calls cs = .ok s)
    (ran : s.runFrame = .ok s') :
    s'.rules = heldAfter rules cs ∧
      (∃ t, (s.table.setRules s'.table.rules).deliverAll (sentSince cs) = .ok t ∧
        s'.table = t.render.2) ∧
      (¬ ReplacedLate cs → s'.table.rules = rules) ∧
      (s'.table.rules = s'.rules ↔ ReplacedLate cs ∨ heldAfter rules cs = rules) := by
  have before := reached_calls lawful run
  have after := before.runFrame lawful ran
  have held : s'.rules = heldAfter rules cs := by
    rw [after.held, heldAfter_snoc]
  obtain ⟨t, delivered, rfl⟩ := (runFrame_eq_ok_iff lawful).1 ran
  have used : (s.showing t).table.rules = s.nextRules := Table.rules_deliverAll delivered
  refine ⟨held, ⟨t, ?_, rfl⟩, fun notLate => ?_, ?_⟩
  · rw [used, ← before.waiting]
    exact delivered
  · exact used.trans (before.nextRules_eq.2 notLate)
  · rw [held, used]
    by_cases late : ReplacedLate cs
    · exact iff_of_true (before.nextRules_eq.1 late) (Or.inl late)
    · rw [before.nextRules_eq.2 late, or_iff_right late, eq_comm]

/-- Rules that are replaced before the first frame are held and never handed over, so half a second
into the change the pot is half way, as if nothing had been replaced. Once they are replaced again,
the table works with them. -/
theorem table_rules_runFrame_iff_early :
    let slow : MotionRules := { duration := 1000, pruneGrace := 0, fatalRegressions := some false }
    let quick : MotionRules := { slow with duration := 5 }
    let pot (n : Int) : Tree := .map [("pot", .amount (.ofInt n))]
    let early : List Call := [.replaceRules quick, .send (.gameState ⟨some 1, pot 0, false⟩),
      .send (.gameState ⟨some 2, pot 10, false⟩), .send (.tick ⟨500, 0, none⟩)]
    ∃ s s' u u' : Stage, (start slow).calls early = .ok s ∧ s.runFrame = .ok s' ∧
      s'.rules = quick ∧ s'.table.rules = slow ∧ s'.published.root = some (pot 5) ∧
      (start slow).calls (early ++ [.runFrame] ++ [.replaceRules quick]) = .ok u ∧
      u.runFrame = .ok u' ∧ u'.table.rules = u'.rules := by
  intro slow quick pot early
  have notLate : ¬ ReplacedLate early := fun late => by
    have framed := late.framed
    simp [early] at framed
  have late : ReplacedLate (early ++ [.runFrame] ++ [.replaceRules quick]) :=
    replacedLate_snoc.2 (Or.inr ⟨by simp, quick, rfl⟩)
  let s : Stage := { (start slow : Stage) with
    rules := quick, watch := ⟨true, true⟩
    inbox := [.gameState ⟨some 1, pot 0, false⟩, .gameState ⟨some 2, pot 10, false⟩,
      .tick ⟨500, 0, none⟩] }
  let s' := s.showing ((s.table.setRules s.nextRules).receiveAll s.waiting).2
  let u := s'.replaceRules quick
  have first : (start slow).calls early = .ok s := rfl
  have ran : s.runFrame = .ok s' := runFrame_of_tolerant Engine.lawful_plain (by decide +kernel)
  have second : (start slow).calls (early ++ [.runFrame] ++ [.replaceRules quick]) = .ok u :=
    calls_snoc_eq_ok_iff.2 ⟨s', calls_snoc_eq_ok_iff.2 ⟨s, first, ran⟩, rfl⟩
  have ranAgain := runFrame_of_tolerant (s := u) Engine.lawful_plain (by decide +kernel)
  obtain ⟨held, -, atFirst, -⟩ := table_rules_runFrame_iff Engine.lawful_plain first ran
  exact ⟨s, s', u, _, first, ran, held, atFirst notLate, by decide +kernel, second, ranAgain,
    (table_rules_runFrame_iff Engine.lawful_plain second ranAgain).2.2.2.2 (Or.inl late)⟩

/-! ## Messages spread over frames -/

/-- What is done to a stage that gets messages frame by frame. -/
def inFrames (batches : List (List Message)) : List Call :=
  batches.flatMap fun ms => ms.map .send ++ [.runFrame]

/-- A stage that shows a table after some frames. -/
structure Shows (s : Stage engine) (t : Table) (frames : Nat) : Prop where
  table : ∃ skippedPaths, s.table = t.withDrawn frames skippedPaths
  rules : s.rules = t.rules
  waiting : s.waiting = []
  published : s.published = t.frame
  tally : s.tally = s.table.tally

theorem shows_start (lawful : engine.Lawful) (rules : MotionRules) :
    (start rules : Stage engine).Shows (Table.start rules) 0 :=
  ⟨⟨0, rfl⟩, rfl, lawful.read_quiet, rfl, rfl⟩

/-- What is sent waits, and nothing else changes. -/
theorem calls_send (lawful : engine.Lawful) (s : Stage engine) (ms : List Message) :
    ∃ inbox, s.calls (ms.map .send) = .ok { s with inbox } ∧
      (engine.read inbox).1 = s.waiting ++ ms := by
  induction ms generalizing s with
  | nil => exact ⟨s.inbox, rfl, (List.append_nil _).symm⟩
  | cons m ms ih =>
    obtain ⟨inbox, run, read⟩ := ih (s.send m)
    refine ⟨inbox, run, ?_⟩
    rw [read, waiting, Stage.send, lawful.read_send, List.append_assoc]
    rfl

variable {t : Table} {frames : Nat}

/-- One frame shows what its messages make of the table. -/
theorem Shows.frame (lawful : engine.Lawful) (h : s.Shows t frames)
    (tolerant : t.clock.fatal = false) (ms : List Message) :
    ∃ s', s.calls (ms.map .send ++ [.runFrame]) = .ok s' ∧
      s'.Shows (t.receiveAll ms).2 (frames + 1) := by
  obtain ⟨skippedPaths, table⟩ := h.table
  have same : s.table.setRules s.nextRules = t.withDrawn frames skippedPaths := by
    unfold nextRules
    rw [h.rules, table]
    cases engine.isChanged s.watch && !engine.isAdded s.watch <;> rfl
  obtain ⟨inbox, sent, read⟩ := calls_send lawful s ms
  rw [h.waiting, List.nil_append] at read
  have ran := runFrame_of_tolerant (s := { s with inbox }) lawful (by rw [table]; exact tolerant)
  have received : ((s.table.setRules s.nextRules).receiveAll ms).2 =
      (t.receiveAll ms).2.withDrawn frames skippedPaths := by
    rw [same, Table.receiveAll_withDrawn]
  refine ⟨_, calls_snoc_eq_ok_iff.2 ⟨_, sent, ran⟩, ?_⟩
  show Shows ({ s with inbox }.showing
    ((s.table.setRules s.nextRules).receiveAll (engine.read inbox).1).2) _ _
  rw [read, received]
  refine ⟨⟨skippedPaths + (t.receiveAll ms).2.frame.skipped.length, rfl⟩, ?_,
    lawful.read_read inbox, rfl, rfl⟩
  exact h.rules.trans (Table.receiveAll_rules t ms).symm

theorem Shows.inFrames (lawful : engine.Lawful) (h : s.Shows t frames)
    (tolerant : t.clock.fatal = false) (batches : List (List Message)) :
    ∃ s', s.calls (inFrames batches) = .ok s' ∧
      s'.Shows (t.receiveAll batches.flatten).2 (frames + batches.length) := by
  induction batches generalizing s t frames with
  | nil => exact ⟨s, rfl, h⟩
  | cons ms batches ih =>
    obtain ⟨u, first, shows⟩ := h.frame lawful tolerant ms
    obtain ⟨s', rest, showsAll⟩ := ih shows (Table.receiveAll_fatal tolerant ms)
    refine ⟨s', ?_, ?_⟩
    · rw [Stage.inFrames, List.flatMap_cons, calls_append, first]
      exact rest
    · rwa [List.flatten_cons, Table.receiveAll_append, List.length_cons,
        Nat.add_comm batches.length, ← Nat.add_assoc]

/-- On a lawful engine, messages that a stage gets frame by frame come to the same as if they were
delivered one after another, with nothing drawn in between: the same state, schedule, clock and rules, and the same
counters, those of drawing apart. Each frame shows what has been delivered by then, so the frames
are counted, and what is published beside the table is its frame and its counters. -/
theorem calls_inFrames (lawful : engine.Lawful)
    (tolerant : (Table.start rules).clock.fatal = false) (batches : List (List Message)) :
    ∃ (s : Stage engine) (t : Table), (start rules).calls (inFrames batches) = .ok s ∧
      (Table.start rules).deliverAll batches.flatten = .ok t ∧ s.Shows t batches.length := by
  obtain ⟨s, run, shows⟩ := (shows_start lawful rules).inFrames lawful tolerant batches
  rw [Nat.zero_add] at shows
  exact ⟨s, _, run, Table.deliverAll_of_tolerant tolerant _, shows⟩

/-- Six messages over four frames, one of which gets none. The pot is half way when it is to go up
again, and the tick after that goes backward. -/
theorem calls_inFrames_four :
    let rules : MotionRules := { duration := 100, pruneGrace := 0, fatalRegressions := some false }
    let pot (version n : Int) : Message :=
      .gameState ⟨some version, .map [("pot", .amount (.ofInt n))], false⟩
    let batches : List (List Message) := [[pot 1 0, pot 2 10], [], [.tick ⟨50, 0, none⟩, pot 3 25],
      [.tick ⟨40, 50, none⟩, .tick ⟨100, 50, none⟩]]
    ∃ (s : Stage) (t : Table), (start rules).calls (inFrames batches) = .ok s ∧
      (Table.start rules).deliverAll batches.flatten = .ok t ∧ s.Shows t 4 ∧
      s.published.root = some (.map [("pot", .amount (.ofInt 15))]) ∧
      s.tally.frames = 4 ∧ t.tally.frames = 0 ∧ s.tally.clockRejections = 1 := by
  intro rules pot batches
  have tolerant : (Table.start rules).clock.fatal = false := rfl
  obtain ⟨s, t, run, delivered, shows⟩ := calls_inFrames Engine.lawful_plain tolerant batches
  have left : t = ((Table.start rules).receiveAll batches.flatten).2 :=
    Table.eq_receiveAll_of_deliverAll delivered
  obtain ⟨skippedPaths, table⟩ := shows.table
  refine ⟨s, t, run, delivered, shows, ?_, ?_, ?_, ?_⟩
  · rw [shows.published, left]
    decide +kernel
  · rw [shows.tally, table]
    rfl
  · rw [left]
    decide +kernel
  · have counted : t.tally.clockRejections = 1 := by
      rw [left]
      decide +kernel
    rw [shows.tally, table]
    exact counted

end Stage

end TableMotion
