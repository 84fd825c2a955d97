import ConstArray.Foundation.Unwind
import Mathlib.Algebra.Order.Ring.Nat
import Mathlib.Tactic.Ring

/-! # Machine arithmetic

Addition, subtraction and multiplication of `w`-bit words: an overflow panics with
overflow checks, and wraps without.
-/

namespace ConstArray.Foundation

variable {σ : Type} {w : Nat} {checks : Bool} {a b : Nat}

/-- The operator `+` of `usize`. -/
def addUsize (w : Nat) (overflowChecks : Bool) (a b : Nat) : Exec σ Nat :=
  if a + b < 2 ^ w then pure (a + b)
  else if overflowChecks then Exec.panic
  else pure (a + b - 2 ^ w)

/-- The operator `-` of `usize`, which borrows from `2 ^ w` when it wraps. -/
def subUsize (w : Nat) (overflowChecks : Bool) (a b : Nat) : Exec σ Nat :=
  if b ≤ a then pure (a - b)
  else if overflowChecks then Exec.panic
  else pure (2 ^ w + a - b)

/-- The operator `*` of `usize`. A product may wrap more than once. -/
def mulUsize (w : Nat) (overflowChecks : Bool) (a b : Nat) : Exec σ Nat :=
  if a * b < 2 ^ w then pure (a * b)
  else if overflowChecks then Exec.panic
  else pure (a * b % 2 ^ w)

/-- Without an overflow, the build mode makes no difference. -/
theorem addUsize_of_lt (h : a + b < 2 ^ w) : (addUsize w checks a b : Exec σ Nat) = pure (a + b) :=
  if_pos h

theorem subUsize_of_le (h : b ≤ a) : (subUsize w checks a b : Exec σ Nat) = pure (a - b) :=
  if_pos h

theorem mulUsize_of_lt (h : a * b < 2 ^ w) : (mulUsize w checks a b : Exec σ Nat) = pure (a * b) :=
  if_pos h

end ConstArray.Foundation
