import ConstArray.Foundation.Unwind

/-! # Absorbing data in pieces

A state that data is fed into piece by piece, and that depends only on what it has
absorbed so far, not on where the pieces end.
-/

namespace ConstArray.Foundation

/-- From `start`, `update` reaches a state that is a function of the absorbed
data. Nothing is said about states that are not reached this way. -/
structure Absorbing {σ S β : Type} (start : Exec σ S) (update : S → List β → Exec σ S) where
  state : List β → S
  start_eq : start = pure (state [])
  update_eq : ∀ data piece, update (state data) piece = pure (state (data ++ piece))

namespace Absorbing

variable {σ S β : Type} {start : Exec σ S} {update : S → List β → Exec σ S}

theorem foldlM_state (h : Absorbing start update) (data : List β) (pieces : List (List β)) :
    pieces.foldlM update (h.state data) = pure (h.state (data ++ pieces.flatten)) := by
  induction pieces generalizing data with
  | nil => rw [List.foldlM_nil, List.flatten_nil, List.append_nil]
  | cons piece pieces ih =>
      rw [List.foldlM_cons, h.update_eq, pure_bind, ih, List.flatten_cons, List.append_assoc]

/-- The boundaries of the pieces do not matter. -/
theorem foldlM_eq (h : Absorbing start update) (pieces : List (List β)) :
    (do pieces.foldlM update (← start)) = pure (h.state pieces.flatten) := by
  have hstart := congrArg (· >>= fun s => pieces.foldlM update s) h.start_eq
  simp only [pure_bind, foldlM_state, List.nil_append] at hstart
  exact hstart

end Absorbing

end ConstArray.Foundation
