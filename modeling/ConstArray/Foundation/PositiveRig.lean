import Mathlib.Algebra.MvPolynomial.Funext
import Mathlib.Algebra.Ring.WithZero

/-! # Commutative semirings without a zero

A positive rig has addition, multiplication and a unit, but no zero. Adjoining
a zero gives a commutative semiring, so a polynomial with natural coefficients
can be evaluated in every positive rig. Polynomials are determined by their
values at natural numbers, hence so are the elements they evaluate to. This is
what makes a set of rig laws complete for identities between natural numbers.
-/

namespace ConstArray.Foundation

/-- A commutative semiring without a zero. -/
class PositiveRig (α : Type*) extends AddCommSemigroup α, CommMonoid α, Distrib α

instance {α : Type*} [PositiveRig α] : CommSemiring (WithZero α) where
  nsmul := nsmulRec
  zero_mul := zero_mul
  mul_zero := mul_zero
  left_distrib := left_distrib
  right_distrib := right_distrib

/-- The laws that make a quotient of expressions a positive rig. -/
structure RigLaws {E : Type*} (r : Setoid E) (add mul : E → E → E) (one : E) : Prop where
  add_congr : ∀ {a b c d}, r a b → r c d → r (add a c) (add b d)
  mul_congr : ∀ {a b c d}, r a b → r c d → r (mul a c) (mul b d)
  add_comm : ∀ a b, r (add a b) (add b a)
  add_assoc : ∀ a b c, r (add (add a b) c) (add a (add b c))
  mul_comm : ∀ a b, r (mul a b) (mul b a)
  mul_assoc : ∀ a b c, r (mul (mul a b) c) (mul a (mul b c))
  one_mul : ∀ a, r (mul one a) a
  mul_add : ∀ a b c, r (mul a (add b c)) (add (mul a b) (mul a c))

namespace RigLaws

variable {E : Type*} {r : Setoid E} {add mul : E → E → E} {one : E}

/-- Expressions modulo the laws. -/
@[reducible] def quotient (laws : RigLaws r add mul one) : PositiveRig (Quotient r) where
  add := Quotient.map₂ add fun _ _ hab _ _ hcd => laws.add_congr hab hcd
  mul := Quotient.map₂ mul fun _ _ hab _ _ hcd => laws.mul_congr hab hcd
  one := ⟦one⟧
  add_assoc := by
    rintro ⟨a⟩ ⟨b⟩ ⟨c⟩
    exact Quotient.sound (laws.add_assoc a b c)
  add_comm := by
    rintro ⟨a⟩ ⟨b⟩
    exact Quotient.sound (laws.add_comm a b)
  mul_assoc := by
    rintro ⟨a⟩ ⟨b⟩ ⟨c⟩
    exact Quotient.sound (laws.mul_assoc a b c)
  mul_comm := by
    rintro ⟨a⟩ ⟨b⟩
    exact Quotient.sound (laws.mul_comm a b)
  one_mul := by
    rintro ⟨a⟩
    exact Quotient.sound (laws.one_mul a)
  mul_one := by
    rintro ⟨a⟩
    exact Quotient.sound (r.trans (laws.mul_comm a one) (laws.one_mul a))
  left_distrib := by
    rintro ⟨a⟩ ⟨b⟩ ⟨c⟩
    exact Quotient.sound (laws.mul_add a b c)
  right_distrib := by
    rintro ⟨a⟩ ⟨b⟩ ⟨c⟩
    -- distributivity on the right is the left law between three commutations
    have hleft := r.trans (laws.mul_comm (add a b) c) (laws.mul_add c a b)
    exact Quotient.sound
      (r.trans hleft (laws.add_congr (laws.mul_comm c a) (laws.mul_comm c b)))

end RigLaws

namespace PositiveRig

variable {α V : Type*} [PositiveRig α]

/-- Evaluate a polynomial at elements of a positive rig. -/
noncomputable def eval (v : V → α) : MvPolynomial V ℕ →+* WithZero α :=
  MvPolynomial.eval₂Hom (Nat.castRingHom (WithZero α)) fun x => (v x : WithZero α)

@[simp] theorem eval_X (v : V → α) (x : V) : eval v (.X x) = (v x : WithZero α) :=
  MvPolynomial.eval₂Hom_X' _ _ _

@[simp] theorem eval_natCast (v : V → α) (n : ℕ) :
    eval v (n : MvPolynomial V ℕ) = (n : WithZero α) := map_natCast _ n

end PositiveRig

/-- Polynomials with natural coefficients that agree at all natural points are
equal. -/
theorem polynomial_eq_of_eval_eq {V : Type*} {p q : MvPolynomial V ℕ}
    (h : ∀ ρ : V → ℕ, MvPolynomial.eval ρ p = MvPolynomial.eval ρ q) : p = q := by
  apply MvPolynomial.map_injective (Nat.castRingHom ℤ) Nat.cast_injective
  -- over the integers, the natural points form a box with infinite sides
  apply MvPolynomial.funext_set (fun _ => Set.range ((↑) : ℕ → ℤ))
    fun _ => Set.infinite_range_of_injective Nat.cast_injective
  intro x hx
  choose ρ hρ using fun i => hx i (Set.mem_univ i)
  obtain rfl : (fun i => (ρ i : ℤ)) = x := funext hρ
  have heval (s : MvPolynomial V ℕ) : MvPolynomial.eval (fun i => (ρ i : ℤ))
      (MvPolynomial.map (Nat.castRingHom ℤ) s) = (MvPolynomial.eval ρ s : ℤ) := by
    rw [MvPolynomial.eval_map]
    exact (MvPolynomial.eval₂_comp_left (Nat.castRingHom ℤ) (RingHom.id ℕ) ρ s).symm
  rw [heval, heval, h ρ]

end ConstArray.Foundation
