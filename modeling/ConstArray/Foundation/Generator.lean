import ConstArray.Foundation.Simulation

/-! # Generators

A generator is called again and again for its next value. What it does after it
has once returned none is not restricted.
-/

namespace ConstArray.Foundation

variable {σ τ E X : Type}

namespace Exec

/-- Successive calls of `next` return the values `xs`. -/
inductive Yields (next : Exec σ (Option X)) : List X → σ → σ → Prop where
  | nil (s : σ) : Yields next [] s s
  | cons {x : X} {xs : List X} {s s' s'' : σ} (hx : next s = .ok (some x) s')
      (hxs : Yields next xs s' s'') : Yields next (x :: xs) s s''

/-- Call a generator until it has returned `n` values or does not return one. -/
theorem exists_yields (next : Exec σ (Option X)) (n : Nat) (s : σ) :
    ∃ xs s', Yields next xs s s' ∧ xs.length ≤ n ∧
      (xs.length < n → ∀ x s'', next s' ≠ .ok (some x) s'') := by
  induction n generalizing s with
  | zero => exact ⟨[], s, .nil s, Nat.le_refl 0, fun h => absurd h (Nat.lt_irrefl 0)⟩
  | succ n ih =>
      by_cases hsome : ∃ x s', next s = .ok (some x) s'
      · obtain ⟨x, s', hx⟩ := hsome
        obtain ⟨xs, s'', hxs, hle, hlast⟩ := ih s'
        refine ⟨x :: xs, s'', .cons hx hxs, Nat.succ_le_succ hle, ?_⟩
        intro hlt
        exact hlast (Nat.lt_of_succ_lt_succ hlt)
      · refine ⟨[], s, .nil s, Nat.zero_le _, ?_⟩
        intro _ x s'' hx
        exact hsome ⟨x, s'', hx⟩

/-- `next().ok_or(e)`. -/
def okOr (e : E) (next : Exec σ (Option X)) : Exec σ (Except E X) := do
  match ← next with
  | some x => return .ok x
  | none => return .error e

protected theorem Refines.okOr {R : σ → τ → Prop} {next : Exec σ (Option X)}
    {next' : Exec τ (Option X)} (h : Refines R Eq next next') (e : E) :
    Refines R Eq (okOr e next) (okOr e next') := by
  refine h.bind_same ?_
  intro x
  cases x <;> exact .pure rfl

/-- What a call is followed by depends on whether it returns a value. -/
theorem okOr_onUnwind_bind {β : Type} (e : E) (next : Exec σ (Option X))
    (cleanup : Exec σ Unit) (k : Except E X → Exec σ β) :
    ((okOr e next).onUnwind cleanup >>= k) =
      (next.onUnwind cleanup >>= fun r => k (r.elim (.error e) .ok)) := by
  funext s
  rw [onUnwind_bind_apply, onUnwind_bind_apply, okOr, bind_apply]
  cases next s with
  | ok r s' => cases r <;> rfl
  | panic s' => rfl
  | abort => rfl
  | ub => rfl

/-- Calls that return values are collected. -/
theorem tryTraverse_yields (drop : X → Dtor σ) (dropErr : E → Dtor σ) (e : E)
    {next : Exec σ (Option X)} {xs : List X} {s s' : σ} (h : Yields next xs s s') (n : Nat)
    (done : List X) :
    tryTraverse drop dropErr (.replicate (xs.length + n) (okOr e next)) done s =
      tryTraverse drop dropErr (.replicate n (okOr e next)) (done ++ xs) s' := by
  induction h generalizing done with
  | nil s => rw [List.length_nil, Nat.zero_add, List.append_nil]
  | @cons x xs s s' s'' hx _ ih =>
      rw [List.length_cons, Nat.succ_add, List.replicate_succ, tryTraverse, okOr_onUnwind_bind,
        onUnwind_bind_apply, hx]
      have hrest := ih (done ++ [x])
      rwa [List.append_assoc, List.singleton_append] at hrest

end Exec

end ConstArray.Foundation
