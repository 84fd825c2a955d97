import ConstArray.Foundation.Unwind
import Mathlib.Data.List.Range

/-! # Guarded traversals

Run a list of computations in order and collect their results. What was collected
so far is owned by a guard: it is dropped when a computation fails or panics.
-/

namespace ConstArray.Foundation

variable {σ E X Y : Type}

namespace Exec

/-- Run the computations in order, up to the first error. The error about to be
returned is dropped if dropping what was collected panics. -/
def tryTraverse (drop : X → Dtor σ) (dropErr : E → Dtor σ) :
    List (Exec σ (Except E X)) → List X → Exec σ (Except E (List X))
  | [], done => pure (.ok done)
  | c :: cs, done => do
      match ← c.onUnwind (Dtor.slice drop done).run with
      | .ok x => tryTraverse drop dropErr cs (done ++ [x])
      | .error e =>
          (Dtor.slice drop done).run.onUnwind (dropErr e).run
          return .error e

/-- `tryTraverse` for computations that do not fail. -/
def traverse (drop : X → Dtor σ) : List (Exec σ X) → List X → Exec σ (List X)
  | [], done => pure done
  | c :: cs, done => do
      let x ← c.onUnwind (Dtor.slice drop done).run
      traverse drop cs (done ++ [x])

/-- A computation that does not fail, as one that may. -/
def infallible (c : Exec σ X) : Exec σ (Except Empty X) := Except.ok <$> c

theorem infallible_onUnwind (c : Exec σ X) (cleanup : Exec σ Unit) :
    (infallible c).onUnwind cleanup = infallible (c.onUnwind cleanup) := by
  funext s
  rw [onUnwind, infallible, infallible, map_apply, map_apply, onUnwind]
  cases c s with
  | panic s' =>
      simp only [unwind]
      cases cleanup s' <;> rfl
  | _ => rfl

theorem tryTraverse_infallible (drop : X → Dtor σ) (dropErr : Empty → Dtor σ)
    (cs : List (Exec σ X)) (done : List X) :
    tryTraverse drop dropErr (cs.map infallible) done = Except.ok <$> traverse drop cs done := by
  induction cs generalizing done with
  | nil => rfl
  | cons c cs ih =>
      rw [List.map_cons, tryTraverse, infallible_onUnwind, infallible, traverse, map_bind,
        bind_map_left]
      exact congrArg _ (funext fun x => ih (done ++ [x]))

/-- The calls for the indices of a list are the calls for its elements. -/
theorem map_range_unwrap (g : X → Exec σ Y) (xs : List X) :
    (List.range xs.length).map (fun i => do g (← unwrap xs[i]?)) = xs.map g := by
  apply List.ext_getElem
  · simp
  · intro i hi _
    rw [List.length_map, List.length_range] at hi
    simp [hi]

/-- A traversal of computations that do nothing else. -/
theorem traverse_pure (drop : X → Dtor σ) (xs done : List X) :
    traverse drop (xs.map (pure : X → Exec σ X)) done = pure (done ++ xs) := by
  induction xs generalizing done with
  | nil => rw [List.map_nil, traverse, List.append_nil]
  | cons x xs ih =>
      rw [List.map_cons, traverse, onUnwind_pure, pure_bind, ih, List.append_assoc,
        List.singleton_append]

/-! ## The calls of a traversal -/

/-- The computations, run one after the other, return the values `xs`. -/
inductive Returns : List (Exec σ (Except E X)) → List X → σ → σ → Prop where
  | nil (s : σ) : Returns [] [] s s
  | cons {c : Exec σ (Except E X)} {cs : List (Exec σ (Except E X))} {x : X} {xs : List X}
      {s s' s'' : σ} (hc : c s = .ok (.ok x) s') (hcs : Returns cs xs s' s'') :
      Returns (c :: cs) (x :: xs) s s''

theorem Returns.length_eq {cs : List (Exec σ (Except E X))} {xs : List X} {s s' : σ}
    (h : Returns cs xs s s') : xs.length = cs.length := by
  induction h with
  | nil => rfl
  | cons _ _ ih => rw [List.length_cons, List.length_cons, ih]

theorem Returns.append {cs ds : List (Exec σ (Except E X))} {xs ys : List X} {s s' s'' : σ}
    (h : Returns cs xs s s') (k : Returns ds ys s' s'') :
    Returns (cs ++ ds) (xs ++ ys) s s'' := by
  induction h with
  | nil => exact k
  | cons hc _ ih => exact .cons hc (ih k)

theorem infallible_eq_ok {c : Exec σ X} {s t : σ} {x : X} :
    infallible c s = .ok (.ok x) t ↔ c s = .ok x t := by
  rw [infallible, map_apply]
  cases c s <;> grind

/-- What a traversal returns are the values of its calls. -/
theorem traverse_eq_ok {drop : X → Dtor σ} {cs : List (Exec σ X)} {done ys : List X} {s t : σ} :
    traverse drop cs done s = .ok ys t ↔
      ∃ xs, Returns (cs.map infallible) xs s t ∧ ys = done ++ xs := by
  induction cs generalizing done s with
  | nil =>
      constructor
      · intro h
        cases h
        exact ⟨[], .nil _, (List.append_nil _).symm⟩
      · rintro ⟨xs, h, rfl⟩
        cases h
        rw [List.append_nil]
        rfl
  | cons c cs ih =>
      rw [traverse, onUnwind_bind_eq_ok]
      constructor
      · rintro ⟨x, s', hc, hrest⟩
        obtain ⟨xs, hxs, rfl⟩ := ih.mp hrest
        exact ⟨x :: xs, .cons (infallible_eq_ok.mpr hc) hxs, by simp⟩
      · rintro ⟨xs, h, rfl⟩
        cases h with
        | cons hc hcs =>
            exact ⟨_, _, infallible_eq_ok.mp hc, ih.mpr ⟨_, hcs, by simp⟩⟩

/-- How a traversal of `cs` ends. -/
inductive Ends (drop : X → Dtor σ) (dropErr : E → Dtor σ) (cs : List (Exec σ (Except E X)))
    (done : List X) (s : σ) :
    Outcome σ (Except E (List X)) → Prop where
  | done {xs : List X} {s' : σ} (h : Returns cs xs s s') :
      Ends drop dropErr cs done s (.ok (.ok (done ++ xs)) s')
  | error {cs₁ cs₂ : List (Exec σ (Except E X))} {c : Exec σ (Except E X)} {xs : List X}
      {s₁ s₂ : σ} {e : E} (hcs : cs = cs₁ ++ c :: cs₂) (h : Returns cs₁ xs s s₁)
      (hc : c s₁ = .ok (.error e) s₂) :
      Ends drop dropErr cs done s ((do
        (Dtor.slice drop (done ++ xs)).run.onUnwind (dropErr e).run
        return .error e : Exec σ _) s₂)
  | panic {cs₁ cs₂ : List (Exec σ (Except E X))} {c : Exec σ (Except E X)} {xs : List X}
      {s₁ s₂ : σ} (hcs : cs = cs₁ ++ c :: cs₂) (h : Returns cs₁ xs s s₁)
      (hc : c s₁ = .panic s₂) :
      Ends drop dropErr cs done s (unwind (Dtor.slice drop (done ++ xs)).run s₂)
  | abort {cs₁ cs₂ : List (Exec σ (Except E X))} {c : Exec σ (Except E X)} {xs : List X}
      {s₁ : σ} (hcs : cs = cs₁ ++ c :: cs₂) (h : Returns cs₁ xs s s₁) (hc : c s₁ = .abort) :
      Ends drop dropErr cs done s .abort
  | ub {cs₁ cs₂ : List (Exec σ (Except E X))} {c : Exec σ (Except E X)} {xs : List X}
      {s₁ : σ} (hcs : cs = cs₁ ++ c :: cs₂) (h : Returns cs₁ xs s s₁) (hc : c s₁ = .ub) :
      Ends drop dropErr cs done s .ub

/-- A traversal calls in order, each computation at most once, and stops at the
first that does not return a value. -/
theorem tryTraverse_ends (drop : X → Dtor σ) (dropErr : E → Dtor σ)
    (cs : List (Exec σ (Except E X))) (done : List X) (s : σ) :
    Ends drop dropErr cs done s (tryTraverse drop dropErr cs done s) := by
  induction cs generalizing done s with
  | nil =>
      have hdone : Ends drop dropErr ([] : List (Exec σ (Except E X))) done s
          (.ok (.ok (done ++ [])) s) := .done (.nil s)
      rwa [List.append_nil] at hdone
  | cons c cs ih =>
      rw [tryTraverse, onUnwind_bind_apply]
      cases hc : c s with
      | ok r s' =>
          cases r with
          | error e =>
              have herror : Ends drop dropErr (c :: cs) done s ((do
                  (Dtor.slice drop (done ++ [])).run.onUnwind (dropErr e).run
                  return .error e : Exec σ _) s') :=
                .error (List.nil_append (c :: cs)).symm (.nil s) hc
              rwa [List.append_nil] at herror
          | ok x =>
              -- `x` was collected: shift it from what is done to what is still to come
              have hshift (xs : List X) : done ++ [x] ++ xs = done ++ x :: xs := by simp
              have hrest := ih (done ++ [x]) s'
              dsimp only
              generalize tryTraverse drop dropErr cs (done ++ [x]) s' = result at hrest
              cases hrest with
              | done h =>
                  rw [hshift]
                  exact .done (.cons hc h)
              | error hcs h hc' =>
                  rw [hshift]
                  exact .error (by rw [hcs]; rfl) (.cons hc h) hc'
              | panic hcs h hc' =>
                  rw [hshift]
                  exact .panic (by rw [hcs]; rfl) (.cons hc h) hc'
              | abort hcs h hc' => exact .abort (by rw [hcs]; rfl) (.cons hc h) hc'
              | ub hcs h hc' => exact .ub (by rw [hcs]; rfl) (.cons hc h) hc'
      | panic s' =>
          have hpanic : Ends drop dropErr (c :: cs) done s
              (unwind (Dtor.slice drop (done ++ [])).run s') :=
            .panic (List.nil_append (c :: cs)).symm (.nil s) hc
          rwa [List.append_nil] at hpanic
      | abort => exact .abort (List.nil_append (c :: cs)).symm (.nil s) hc
      | ub => exact .ub (List.nil_append (c :: cs)).symm (.nil s) hc

end Exec

end ConstArray.Foundation
