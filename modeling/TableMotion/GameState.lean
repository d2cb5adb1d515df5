import TableMotion.Tree.Access
import TableMotion.Tree.Merge

/-!
# The state of a table

Updates arrive in two streams, one for the game and one for the tournament, each with versions of
its own. An update whose version is not above that of its stream is stale and changes nothing but a
count. The tournament lives under one key of the tree, and a snapshot of the game keeps it.
-/

namespace TableMotion

/-- How an update rewrites the state. -/
inductive Patch where
  /-- A snapshot of the whole state. -/
  | replace (state : Tree)
  /-- A part of the state that is merged into it. -/
  | merge (part : Tree)
  /-- A subtree for a path, below maps that are made where they are missing. -/
  | replaceAt (path : Path) (subtree : Tree)
  /-- The tournament. -/
  | tournament (subtree : Tree)
deriving DecidableEq

/-- An update that is not newer than what its stream holds. -/
structure StaleUpdate where
  incoming : Int
  applied : Int
deriving DecidableEq

def StaleUpdate.message (e : StaleUpdate) : String :=
  "stale version " ++ toString e.incoming ++ " (applied " ++ toString e.applied ++ ")"

/-- The state of a table with the versions it has reached. -/
structure GameState where
  tree : Tree
  version : Option Int
  tournamentVersion : Option Int
  /-- Whether any update was accepted. -/
  loaded : Bool
  accepted : Nat
  dropped : Nat
deriving DecidableEq

/-- What an accepted update did. -/
structure Acceptance where
  previous : Tree
  /-- The version that the stream of the update has reached. -/
  version : Option Int
  /-- Whether this was the first update. -/
  initial : Bool
deriving DecidableEq

namespace Patch

/-- The key that holds the tournament. -/
def tournamentKey : String := "tournament"

/-- Whether a patch belongs to the stream of the tournament. -/
def isTournament : Patch → Bool
  | .tournament _ => true
  | _ => false

/-- A snapshot with the tournament of the current state, if it brings none. -/
def keepTournament (current incoming : Tree) : Tree :=
  let held := current.fields?.bind (Dictionary.find? · tournamentKey)
  match held, incoming with
  | some t, .map fields =>
    match Dictionary.find? fields tournamentKey with
    | none => .map (Dictionary.insert tournamentKey t fields)
    | some _ => incoming
  | _, _ => incoming

/-- The tree itself if it is a map, else the empty map. -/
def asMap : Tree → Tree
  | .map fields => .map fields
  | _ => Tree.emptyMap

/-- Makes an empty map where nothing is, if one can be put there. -/
def ensureNode (t : Tree) (p : Path) : Tree :=
  if (t.get? p).isSome then t
  else match t.set p Tree.emptyMap with
    | .ok changed => changed
    | .error _ => t

/-- The paths between the root and a path, the shortest first. -/
def innerPaths (p : Path) : List Path := ((List.range p.length).drop 1).map p.take

/-- Puts a subtree at a path. Where that cannot be done, nothing is put. -/
def graft (t : Tree) (p : Path) (subtree : Tree) : Tree :=
  let opened := (innerPaths p).foldl ensureNode t
  match opened.set p subtree with
  | .ok changed => changed
  | .error _ => opened

/-- The state that a patch makes of a state. -/
def applyTo : Patch → Tree → Tree
  | .replace state, current => keepTournament current state
  | .merge part, current => (asMap current).merge part
  | .replaceAt p subtree, current => graft (asMap current) p subtree
  | .tournament subtree, current => graft (asMap current) [tournamentKey] subtree

end Patch

namespace GameState

/-- The state before any update. -/
def empty : GameState := ⟨.null, none, none, false, 0, 0⟩

/-- The version that the stream of a patch has reached. -/
def streamVersion (s : GameState) (patch : Patch) : Option Int :=
  if patch.isTournament then s.tournamentVersion else s.version

/-- Why an update with a version is stale, if it is. -/
def stale? (s : GameState) (version : Option Int) (patch : Patch) : Option StaleUpdate :=
  match version, s.streamVersion patch with
  | some incoming, some applied => if incoming ≤ applied then some ⟨incoming, applied⟩ else none
  | _, _ => none

/-- Applies an update. One without a version is always applied and leaves the version alone. -/
def apply (s : GameState) (version : Option Int) (patch : Patch) :
    Except StaleUpdate Acceptance × GameState :=
  match s.stale? version patch with
  | some e => (.error e, { s with dropped := s.dropped + 1 })
  | none =>
    let reached := version.or (s.streamVersion patch)
    let versioned := if patch.isTournament then { s with tournamentVersion := reached }
      else { s with version := reached }
    (.ok ⟨s.tree, reached, !s.loaded⟩,
      { versioned with
        tree := patch.applyTo s.tree, loaded := true, accepted := s.accepted + 1 })

end GameState

end TableMotion
