import TableMotion.Message

/-!
# Engines

A stage runs on an engine that is not part of this library. It uses three things of it: a channel
that brings messages to the system that reads them, a watch that tells a system what became of a
resource since the system last ran, and a way to run systems as one frame. `Engine.Lawful` says what
is relied on, and `Engine.plain` is the engine that runs here.
-/

namespace TableMotion

/-- What a stage uses of an engine. -/
structure Engine where
  /-- Messages on their way to the system that reads them. -/
  Channel : Type
  /-- The channel before anything is sent. -/
  quiet : Channel
  send : Channel → Message → Channel
  /-- What the reading system is given, and the channel after that. -/
  read : Channel → List Message × Channel
  /-- What became of a resource, for a system that watches it. -/
  Watch : Type
  /-- The resource was inserted, and the system never ran. -/
  inserted : Watch
  /-- The resource is accessed mutably. -/
  mutated : Watch → Watch
  /-- The system runs. -/
  ran : Watch → Watch
  isAdded : Watch → Bool
  isChanged : Watch → Bool
  /-- Runs chained systems as one frame. -/
  runChained : {σ ε : Type} → List (σ → Except ε σ) → σ → Except ε σ

namespace Engine

/-- What is relied on. A reader is given each message exactly once, in the order of sending. For a
system that watches a resource, it counts as added if the system has not run since the insertion,
and as changed if it was also accessed mutably since the system last ran. Chained systems run in
their order, each once, until one fails. -/
structure Lawful (engine : Engine) : Prop where
  read_quiet : (engine.read engine.quiet).1 = []
  read_send : ∀ c m, (engine.read (engine.send c m)).1 = (engine.read c).1 ++ [m]
  read_read : ∀ c, (engine.read (engine.read c).2).1 = []
  isAdded_inserted : engine.isAdded engine.inserted = true
  isAdded_mutated : ∀ w, engine.isAdded (engine.mutated w) = engine.isAdded w
  isAdded_ran : ∀ w, engine.isAdded (engine.ran w) = false
  isChanged_inserted : engine.isChanged engine.inserted = true
  isChanged_mutated : ∀ w, engine.isChanged (engine.mutated w) = true
  isChanged_ran : ∀ w, engine.isChanged (engine.ran w) = false
  runChained_eq : ∀ {σ ε : Type} (systems : List (σ → Except ε σ)) (s : σ),
    engine.runChained systems s = systems.foldlM (fun s system => system s) s

/-- Whether a resource was put there, and whether it was put there or accessed, since a system last
ran. -/
structure Flags where
  added : Bool
  changed : Bool

/-- The engine that runs here: a list of messages that is emptied by reading, and two flags. -/
def plain : Engine where
  Channel := List Message
  quiet := []
  send sent m := sent ++ [m]
  read sent := (sent, [])
  Watch := Flags
  inserted := ⟨true, true⟩
  mutated w := { w with changed := true }
  ran _ := ⟨false, false⟩
  isAdded w := w.added
  isChanged w := w.changed
  runChained systems s := systems.foldlM (fun s system => system s) s

theorem lawful_plain : plain.Lawful where
  read_quiet := rfl
  read_send _ _ := rfl
  read_read _ := rfl
  isAdded_inserted := rfl
  isAdded_mutated _ := rfl
  isAdded_ran _ := rfl
  isChanged_inserted := rfl
  isChanged_mutated _ := rfl
  isChanged_ran _ := rfl
  runChained_eq _ _ := rfl

end Engine

end TableMotion
