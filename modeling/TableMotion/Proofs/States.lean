import TableMotion.GameState
import TableMotion.Proofs.Overwriting

/-!
# States stay what updates are

A property of trees that writes keep and parts share passes from the updates of a table to its
state, whatever updates are merged, put in place or dropped (`holds_apply`).
-/

namespace TableMotion

namespace Tree

/-- A property that passes from trees to what is put together from their parts. -/
structure Stable (P : Tree → Prop) : Prop extends OfParts P, Hereditary P where
  emptyMap : P emptyMap

theorem plain_stable : Stable Plain where
  toOfParts := plain_ofParts
  toHereditary := plain_hereditary
  emptyMap := by decide

theorem regular_stable : Stable Regular where
  toOfParts := regular_ofParts
  toHereditary := regular_hereditary
  emptyMap := by decide

variable {P : Tree → Prop}

theorem Stable.insert (h : Stable P) {fields : Dictionary Tree} (hf : P (.map fields)) {t : Tree}
    (ht : P t) (key : String) : P (.map (Dictionary.insert key t fields)) := by
  have done : (Tree.map fields).put [key] (some t) =
      .ok (.map (Dictionary.insert key t fields)) := put_some_ok.2 rfl
  exact h.put hf (slot_some.2 ht) done

mutual

theorem Stable.merge (h : Stable P) : (t patch : Tree) → P t → P patch → P (t.merge patch)
  | t, .map patch, ht, hp => by
    cases t with
    | map fields => exact h.mergeFields fields patch ht (h.fields hp)
    | list | null | bool | amount | text => exact hp
  | t, .null, _, hp | t, .bool _, _, hp | t, .amount _, _, hp | t, .text _, _, hp
  | t, .list _, _, hp => by
    cases t <;> exact hp
termination_by structural _ patch => patch

theorem Stable.mergeFields (h : Stable P) : (fields patch : List (String × Tree)) →
    P (.map fields) → (∀ e ∈ patch, P e.2) → P (.map (mergeFields fields patch))
  | fields, [], hf, _ => hf
  | fields, (key, part) :: rest, hf, hp => by
    have hpart := hp _ List.mem_cons_self
    have merged : P (match Dictionary.find? fields key with
        | some t => Tree.merge t part
        | none => part) := by
      cases found : Dictionary.find? fields key with
      | none => exact hpart
      | some t => exact h.merge t part (h.fields hf _ (Dictionary.mem_of_find? found)) hpart
    exact h.mergeFields _ rest (h.insert hf merged key) fun e he => hp e (List.mem_cons_of_mem _ he)
termination_by structural _ patch => patch

end

end Tree

namespace Patch

open TableMotion.Tree

variable {P : Tree → Prop}

/-- The tree that a patch brings. -/
def content : Patch → Tree
  | .replace state => state
  | .merge part => part
  | .replaceAt _ subtree => subtree
  | .tournament subtree => subtree

theorem holds_asMap (h : Stable P) {t : Tree} (ht : P t) : P (asMap t) := by
  cases t with
  | map fields => exact ht
  | list | null | bool | amount | text => exact h.emptyMap

theorem holds_keepTournament (h : Stable P) {current incoming : Tree} (hc : P current)
    (hi : P incoming) : P (keepTournament current incoming) := by
  unfold keepTournament
  simp only
  split
  · rename_i t fields held
    split
    · cases current with
      | map now => exact h.insert hi (h.fields hc _ (Dictionary.mem_of_find? held)) _
      | list | null | bool | amount | text => cases held
    · exact hi
  · exact hi

theorem holds_ensureNode (h : Stable P) {t : Tree} (ht : P t) (p : Path) :
    P (ensureNode t p) := by
  unfold ensureNode
  split
  · exact ht
  · split
    · rename_i changed done
      exact h.put ht (slot_some.2 h.emptyMap) done
    · exact ht

theorem holds_graft (h : Stable P) {t subtree : Tree} (ht : P t) (hs : P subtree) (p : Path) :
    P (graft t p subtree) := by
  have opened : ∀ ps : List Path, ∀ t, P t → P (ps.foldl ensureNode t) := by
    intro ps
    induction ps with
    | nil => exact fun t ht => ht
    | cons q ps ih => exact fun t ht => ih _ (holds_ensureNode h ht q)
  have hopened := opened (innerPaths p) t ht
  unfold graft
  simp only
  split
  · rename_i changed done
    exact h.put hopened (slot_some.2 hs) done
  · exact hopened

theorem holds_applyTo (h : Stable P) {patch : Patch} {current : Tree} (hp : P patch.content)
    (hc : P current) : P (patch.applyTo current) := by
  cases patch with
  | replace state => exact holds_keepTournament h hc hp
  | merge part => exact h.merge _ _ (holds_asMap h hc) hp
  | replaceAt p subtree => exact holds_graft h (holds_asMap h hc) hp p
  | tournament subtree => exact holds_graft h (holds_asMap h hc) hp _

end Patch

namespace GameState

/-- What an update leaves has every stable property of the state and of what the update brings. -/
theorem holds_apply {P : Tree → Prop} (h : Tree.Stable P) {s : GameState} (hs : P s.tree)
    {patch : Patch} (hp : P patch.content) (version : Option Int) :
    P (s.apply version patch).2.tree := by
  unfold apply
  split
  · exact hs
  · exact Patch.holds_applyTo h hp hs

end GameState

end TableMotion
