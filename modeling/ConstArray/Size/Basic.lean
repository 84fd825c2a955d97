import Mathlib.Algebra.Order.Ring.Nat
import Mathlib.Tactic.Ring

/-! # Sizes and their lengths

A size is a tree of `Len<N>`, `Sum` and `Prod`. Its length is computed twice:
`Size.usize?` is the associated constant `ArrayLen::USIZE`, evaluated in checked
`w`-bit arithmetic, and `Size.length` is the exact natural number. Generic code
also mentions size parameters, so the trees are indexed by a type `P` of
parameters; a concrete size is a tree without any.
-/

namespace ConstArray

/-- The types that implement `ArrayLen`, over the size parameters `P` in scope. -/
inductive Size (P : Type) where
  | param (p : P)
  | len (n : Nat)
  | sum (a b : Size P)
  | prod (a b : Size P)
  deriving DecidableEq, Repr

/-- A size after monomorphization. -/
abbrev ConcreteSize := Size Empty

/-! ## Constant evaluation -/

/-- A literal of type `usize`. -/
def literal (w n : Nat) : Option Nat :=
  if n < 2 ^ w then some n else none

/-- `a + b` in a constant; an overflow is a compile error, modelled by `none`. -/
def checkedAdd (w a b : Nat) : Option Nat :=
  if a + b < 2 ^ w then some (a + b) else none

/-- `a * b` in a constant, and `usize::checked_mul`. -/
def checkedMul (w a b : Nat) : Option Nat :=
  if a * b < 2 ^ w then some (a * b) else none

theorem literal_eq_some {w n k : Nat} : literal w n = some k ↔ n = k ∧ n < 2 ^ w := by
  simp only [literal, Option.ite_none_right_eq_some, Option.some.injEq]
  exact and_comm

theorem checkedAdd_eq_some {w a b k : Nat} :
    checkedAdd w a b = some k ↔ a + b = k ∧ a + b < 2 ^ w := by
  simp only [checkedAdd, Option.ite_none_right_eq_some, Option.some.injEq]
  exact and_comm

theorem checkedMul_eq_some {w a b k : Nat} :
    checkedMul w a b = some k ↔ a * b = k ∧ a * b < 2 ^ w := by
  simp only [checkedMul, Option.ite_none_right_eq_some, Option.some.injEq]
  exact and_comm

theorem checkedMul_eq_none {w a b : Nat} : checkedMul w a b = none ↔ 2 ^ w ≤ a * b := by
  simp [checkedMul]

namespace Size

variable {P : Type}

/-- `ArrayLen::USIZE`. The length of a parameter is not known before
monomorphization, so no constant that mentions one evaluates. -/
def usize? (w : Nat) : Size P → Option Nat
  | .param _ => none
  | .len n => literal w n
  | .sum a b => do checkedAdd w (← a.usize? w) (← b.usize? w)
  | .prod a b => do checkedMul w (← a.usize? w) (← b.usize? w)

/-- The exact length, for given lengths of the parameters. -/
def length (ρ : P → Nat) : Size P → Nat
  | .param p => ρ p
  | .len n => n
  | .sum a b => a.length ρ + b.length ρ
  | .prod a b => a.length ρ * b.length ρ

@[simp] theorem length_param (ρ : P → Nat) (p : P) : (param p).length ρ = ρ p := rfl
@[simp] theorem length_len (ρ : P → Nat) (n : Nat) : (len n : Size P).length ρ = n := rfl
@[simp] theorem length_sum (ρ : P → Nat) (a b : Size P) :
    (sum a b).length ρ = a.length ρ + b.length ρ := rfl
@[simp] theorem length_prod (ρ : P → Nat) (a b : Size P) :
    (prod a b).length ρ = a.length ρ * b.length ρ := rfl

/-- The number of elements of an array of a concrete size. -/
def count (S : ConcreteSize) : Nat := S.length Empty.elim

@[simp] theorem count_len (n : Nat) : (len n : ConcreteSize).count = n := rfl
@[simp] theorem count_sum (a b : ConcreteSize) : (sum a b).count = a.count + b.count := rfl
@[simp] theorem count_prod (a b : ConcreteSize) : (prod a b).count = a.count * b.count := rfl

/-- A constant that evaluates holds the exact length, which fits into a word. -/
theorem length_of_usize? {w : Nat} {S : Size P} {n : Nat} (hS : S.usize? w = some n)
    (ρ : P → Nat) : S.length ρ = n ∧ n < 2 ^ w := by
  induction S generalizing n with
  | param p => simp [usize?] at hS
  | len k =>
      obtain ⟨rfl, hlt⟩ := literal_eq_some.mp hS
      exact ⟨rfl, hlt⟩
  | sum a b iha ihb =>
      simp only [usize?, Option.bind_eq_bind, Option.bind_eq_some_iff] at hS
      obtain ⟨na, ha, nb, hb, hadd⟩ := hS
      obtain ⟨rfl, hlt⟩ := checkedAdd_eq_some.mp hadd
      rw [length_sum, (iha ha).1, (ihb hb).1]
      exact ⟨rfl, hlt⟩
  | prod a b iha ihb =>
      simp only [usize?, Option.bind_eq_bind, Option.bind_eq_some_iff] at hS
      obtain ⟨na, ha, nb, hb, hmul⟩ := hS
      obtain ⟨rfl, hlt⟩ := checkedMul_eq_some.mp hmul
      rw [length_prod, (iha ha).1, (ihb hb).1]
      exact ⟨rfl, hlt⟩

/-- A concrete size that is usable on a `w`-bit target: its length constant
evaluates. Every other size is rejected when code that uses it is
monomorphized. -/
def Evaluates (w : Nat) (S : ConcreteSize) : Prop := S.usize? w = some S.count

instance (w : Nat) (S : ConcreteSize) : Decidable (S.Evaluates w) :=
  inferInstanceAs (Decidable (S.usize? w = some S.count))

theorem evaluates_of_usize? {w : Nat} {S : ConcreteSize} {n : Nat} (hS : S.usize? w = some n) :
    S.Evaluates w := by
  rw [Evaluates, count, (length_of_usize? hS Empty.elim).1, hS]

namespace Evaluates

variable {w : Nat} {A B S : ConcreteSize}

theorem count_lt (hS : S.Evaluates w) : S.count < 2 ^ w := (length_of_usize? hS Empty.elim).2

/-- Both parts of a usable `Sum` are usable. -/
theorem of_sum (h : (sum A B).Evaluates w) : A.Evaluates w ∧ B.Evaluates w := by
  simp only [Evaluates, usize?, Option.bind_eq_bind, Option.bind_eq_some_iff] at h
  obtain ⟨na, ha, nb, hb, -⟩ := h
  exact ⟨evaluates_of_usize? ha, evaluates_of_usize? hb⟩

/-- Both factors of a usable `Prod` are usable. -/
theorem of_prod (h : (prod A B).Evaluates w) : A.Evaluates w ∧ B.Evaluates w := by
  simp only [Evaluates, usize?, Option.bind_eq_bind, Option.bind_eq_some_iff] at h
  obtain ⟨na, ha, nb, hb, -⟩ := h
  exact ⟨evaluates_of_usize? ha, evaluates_of_usize? hb⟩

end Evaluates

end Size

end ConstArray
