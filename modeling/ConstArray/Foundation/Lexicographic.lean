import ConstArray.Foundation.Unwind
import Mathlib.Data.List.Forall2

/-! # Comparing sequences element by element

A comparison goes through two sequences in order and leaves with the first result
other than `go`. The elements are compared by computations, which may have effects
and need not return: what is compared in parts makes the same calls as what is
compared in one pass.
-/

namespace ConstArray.Foundation

variable {m : Type → Type} [Monad m] {X Y X' Y' R : Type} [DecidableEq R]

/-- Go on after the result `go`, leave with any other one. -/
def orLeave (go : R) (first next : m R) : m R := do
  let r ← first
  if r = go then next else return r

/-- `for (x, y) in xs.zip(ys) { … }` that leaves with the first result other than
`go`. -/
def compareEach (go : R) (step : X → Y → m R) : List X → List Y → m R
  | x :: xs, y :: ys => orLeave go (step x y) (compareEach go step xs ys)
  | _, _ => return go

variable [LawfulMonad m] {go : R}

@[simp] theorem orLeave_go (next : m R) : orLeave go (pure go) next = next := by
  rw [orLeave, pure_bind, if_pos rfl]

@[simp] theorem go_orLeave (first : m R) : orLeave go first (pure go) = first := by
  have hresult : ∀ r : R, (if r = go then pure go else pure r : m R) = pure r := by
    intro r
    split
    next h => rw [h]
    next => rfl
  rw [orLeave, bind_congr hresult, bind_pure]

theorem orLeave_of_ne {r : R} (h : r ≠ go) (next : m R) : orLeave go (pure r) next = pure r := by
  rw [orLeave, pure_bind, if_neg h]

theorem orLeave_assoc (first second third : m R) :
    orLeave go (orLeave go first second) third = orLeave go first (orLeave go second third) := by
  unfold orLeave
  rw [bind_assoc]
  apply bind_congr
  intro r
  by_cases h : r = go
  · rw [if_pos h, if_pos h]
  · rw [if_neg h, if_neg h, pure_bind, if_neg h]

/-- If the elements are compared by a relation, so are the sequences. -/
theorem compareEach_relation {step : X → Y → m Bool} {equal : X → Y → Prop}
    (h : ∀ x y, ∃ b, step x y = pure b ∧ (b = true ↔ equal x y)) {xs : List X} {ys : List Y}
    (hlength : xs.length = ys.length) :
    ∃ b, compareEach true step xs ys = pure b ∧ (b = true ↔ List.Forall₂ equal xs ys) := by
  induction xs generalizing ys with
  | nil =>
      obtain rfl := List.length_eq_zero_iff.mp hlength.symm
      exact ⟨true, rfl, iff_of_true rfl .nil⟩
  | cons x xs ih =>
      obtain ⟨y, ys, rfl⟩ := List.exists_cons_of_length_eq_add_one hlength.symm
      obtain ⟨b, hstep, hb⟩ := h x y
      obtain ⟨rest, hrest, hequal⟩ := ih (Nat.succ.inj hlength)
      rw [compareEach, hstep, hrest, List.forall₂_cons, ← hb, ← hequal]
      cases b with
      | true => exact ⟨rest, orLeave_go _, by rw [eq_self, true_and]⟩
      | false => exact ⟨false, orLeave_of_ne Bool.false_ne_true _, by simp⟩

/-- If the elements are compared by an order, the sequences are compared by the
lexicographic order, where the lengths decide last. The results encode as much of an
`Ordering` as is asked for. -/
theorem compareEach_ordering {step : X → X → m R} {compare : X → X → Ordering}
    (encode : Ordering → R) (hencode : ∀ o, encode o = encode .eq → o = .eq)
    (h : ∀ x y, step x y = pure (encode (compare x y))) (xs ys : List X) :
    orLeave (encode .eq) (compareEach (encode .eq) step xs ys)
      (pure (encode (Ord.compare xs.length ys.length))) =
      pure (encode (List.compareLex compare xs ys)) := by
  induction xs generalizing ys with
  | nil =>
      cases ys with
      | nil => exact orLeave_go _
      | cons y ys => exact orLeave_go _
  | cons x xs ih =>
      cases ys with
      | nil => exact orLeave_go _
      | cons y ys =>
          have hlength : Ord.compare (x :: xs).length (y :: ys).length =
              Ord.compare xs.length ys.length := by
            simp only [Nat.compare_eq_ite_lt, List.length_cons, Nat.add_lt_add_iff_right]
          rw [compareEach, orLeave_assoc, h, hlength, ih, List.compareLex_cons_cons]
          cases compare x y with
          | lt => exact orLeave_of_ne (mt (hencode .lt) (by decide)) _
          | eq => exact orLeave_go _
          | gt => exact orLeave_of_ne (mt (hencode .gt) (by decide)) _

/-- Sequences of different lengths are told apart. -/
theorem length_eq_of_compareLex {compare : X → X → Ordering} {xs ys : List X}
    (h : List.compareLex compare xs ys = .eq) : xs.length = ys.length := by
  induction xs generalizing ys with
  | nil => rw [List.compareLex_nil_left_eq_eq.mp h]
  | cons x xs ih =>
      cases ys with
      | nil => cases h
      | cons y ys =>
          rw [List.compareLex_cons_cons, Ordering.then_eq_eq] at h
          exact congrArg (· + 1) (ih h.2)

end ConstArray.Foundation
