import ConstArray.Foundation.PositiveRig
import ConstArray.Size.Proof

/-! # Completeness of the lemmas

In generic code, proofs composed from the lemmas need no check. Up to zero, they
suffice: sizes without a `Len<0>` are provably of the same length exactly when
their lengths are equal for all parameters. The sizes modulo provable equality
form a positive rig, in which a size is the value of its length polynomial.

The exception is real. A proof never changes which parameters occur in a size,
so that `0 * A` has length `0` is out of reach.
-/

namespace ConstArray

open Foundation

variable {P : Type}

namespace Size

/-- Every literal of the size satisfies `q`. -/
def Literals (q : Nat → Prop) : Size P → Prop
  | .param _ => True
  | .len n => q n
  | .sum a b => a.Literals q ∧ b.Literals q
  | .prod a b => a.Literals q ∧ b.Literals q

/-- Decided literal by literal. -/
instance decidableLiterals (q : Nat → Prop) [DecidablePred q] :
    (S : Size P) → Decidable (S.Literals q)
  | .param _ => .isTrue trivial
  | .len n => inferInstanceAs (Decidable (q n))
  | .sum a b | .prod a b =>
      have := decidableLiterals q a
      have := decidableLiterals q b
      inferInstanceAs (Decidable (a.Literals q ∧ b.Literals q))

/-- The literals that a size without a `Len<0>` may contain. -/
def PositiveLiteral (w n : Nat) : Prop := 0 < n ∧ n < 2 ^ w

/-- The parameters that occur in a size. -/
def params : Size P → Set P
  | .param p => {p}
  | .len _ => ∅
  | .sum a b => a.params ∪ b.params
  | .prod a b => a.params ∪ b.params

/-- The length as a polynomial in the parameters. -/
noncomputable def poly : Size P → MvPolynomial P ℕ
  | .param p => .X p
  | .len n => n
  | .sum a b => a.poly + b.poly
  | .prod a b => a.poly * b.poly

theorem eval_poly (ρ : P → Nat) (s : Size P) : MvPolynomial.eval ρ s.poly = s.length ρ := by
  induction s with
  | param p => simp [poly]
  | len n => simp [poly]
  | sum a b iha ihb => simp [poly, iha, ihb]
  | prod a b iha ihb => simp [poly, iha, ihb]

/-- Constants with parameters do not evaluate. -/
theorem params_of_usize? {w n : Nat} {s : Size P} (hs : s.usize? w = some n) :
    s.params = ∅ := by
  induction s generalizing n with
  | param p => simp [usize?] at hs
  | len k => rfl
  | sum a b iha ihb | prod a b iha ihb =>
      simp only [usize?, Option.bind_eq_bind, Option.bind_eq_some_iff] at hs
      obtain ⟨na, ha, nb, hb, -⟩ := hs
      rw [params, iha ha, ihb hb, Set.union_self]

end Size

/-! ## Provable equality -/

/-- The derivation uses `refl`, `symm`, `trans`, `sum`, `prod`, the lemmas and
`same_len!`, but neither `checked` nor `try_new` nor a comparison. -/
def SameLen.Derivation.FromLemmas {w : Nat} {A B : Size P} : SameLen.Derivation w A B → Prop
  | .tryNew _ | .checked _ | .antisymm .. => False
  | .symm d => d.FromLemmas
  | .trans d e | .sum d e | .prod d e => d.FromLemmas ∧ e.FromLemmas
  | _ => True

/-- Some proof of `SameLen<s, t>` is composed from the lemmas. -/
def Provable (w : Nat) (s t : Size P) : Prop :=
  ∃ d : SameLen.Derivation w s t, d.FromLemmas

namespace Provable

variable {w : Nat} {s t u s' t' : Size P}

theorem refl (s : Size P) : Provable w s s := ⟨.refl s, trivial⟩

theorem symm : Provable w s t → Provable w t s
  | ⟨d, hd⟩ => ⟨.symm d, hd⟩

theorem trans : Provable w s t → Provable w t u → Provable w s u
  | ⟨d, hd⟩, ⟨e, he⟩ => ⟨.trans d e, hd, he⟩

theorem length_eq : Provable w s t → ∀ ρ : P → Nat, s.length ρ = t.length ρ
  | ⟨d, _⟩ => d.holds

/-- Sizes up to proofs composed from the lemmas. -/
def setoid (w : Nat) (P : Type) : Setoid (Size P) where
  r := Provable w
  iseqv := ⟨refl, symm, trans⟩

theorem rigLaws (w : Nat) (P : Type) :
    RigLaws (setoid w P) Size.sum Size.prod (.len 1) where
  add_congr := fun ⟨d, hd⟩ ⟨e, he⟩ => ⟨.sum d e, hd, he⟩
  mul_congr := fun ⟨d, hd⟩ ⟨e, he⟩ => ⟨.prod d e, hd, he⟩
  add_comm a b := ⟨.sumComm a b, trivial⟩
  add_assoc a b c := ⟨.sumAssoc a b c, trivial⟩
  mul_comm a b := ⟨.prodComm a b, trivial⟩
  mul_assoc a b c := ⟨.prodAssoc a b c, trivial⟩
  one_mul a := ⟨.prodOneLeft a, trivial⟩
  mul_add a b c := ⟨.distribLeft a b c, trivial⟩

/-- A literal is one more than its predecessor, by `same_len!`. -/
theorem len_succ {n : Nat} (hn : n + 1 < 2 ^ w) :
    Provable w (.sum (.len n) (.len 1) : Size P) (.len (n + 1)) := by
  have hone : (1 : Nat) < 2 ^ w := by omega
  have hpred : n < 2 ^ w := by omega
  have hsum : (Size.sum (.len n) (.len 1) : Size P).usize? w = some (n + 1) := by
    simp [Size.usize?, literal, checkedAdd, hone, hpred, hn]
  have hlen : (Size.len (n + 1) : Size P).usize? w = some (n + 1) := by
    simp [Size.usize?, literal, hn]
  exact ⟨.sameLen! (SameLen.sameLen!_of_usize? hsum hlen), trivial⟩

end Provable

section Completeness

variable {w : Nat}

/-- The class of a size in the rig of sizes up to the lemmas. -/
def Size.cls (w : Nat) (s : Size P) : Quotient (Provable.setoid w P) := ⟦s⟧

local instance : PositiveRig (Quotient (Provable.setoid w P)) :=
  (Provable.rigLaws w P).quotient

/-- A literal is its own number of ones. -/
theorem natCast_eq_cls_len {n : Nat} (hpos : 0 < n) (hlt : n < 2 ^ w) :
    (n : WithZero (Quotient (Provable.setoid w P))) = (Size.len n : Size P).cls w := by
  induction n with
  | zero => exact absurd hpos (Nat.lt_irrefl 0)
  | succ n ih =>
      rcases Nat.eq_zero_or_pos n with rfl | hn
      · rw [zero_add, Nat.cast_one]
        rfl
      · have hstep : (Size.sum (.len n) (.len 1) : Size P).cls w = (Size.len (n + 1)).cls w :=
          Quotient.sound (Provable.len_succ hlt)
        rw [Nat.cast_succ, ih hn (by omega), ← hstep]
        rfl

/-- Without a `Len<0>`, a size is the value of its length polynomial. -/
theorem eval_poly_eq_cls {s : Size P} (hs : s.Literals (Size.PositiveLiteral w)) :
    PositiveRig.eval (fun p => (Size.param p).cls w) s.poly = s.cls w := by
  induction s with
  | param p => exact PositiveRig.eval_X _ p
  -- only here a `Len<0>` is in the way: the rig of classes has no zero
  | len n => rw [Size.poly, PositiveRig.eval_natCast, natCast_eq_cls_len hs.1 hs.2]
  | sum a b iha ihb =>
      rw [Size.poly, map_add, iha hs.1, ihb hs.2]
      rfl
  | prod a b iha ihb =>
      rw [Size.poly, map_mul, iha hs.1, ihb hs.2]
      rfl

theorem provable_of_length_eq {s t : Size P} (hs : s.Literals (Size.PositiveLiteral w))
    (ht : t.Literals (Size.PositiveLiteral w))
    (hlength : ∀ ρ : P → Nat, s.length ρ = t.length ρ) : Provable w s t := by
  have hpoly : s.poly = t.poly := by
    apply polynomial_eq_of_eval_eq
    intro ρ
    rw [Size.eval_poly, Size.eval_poly, hlength ρ]
  -- the classes are those of equal polynomials; equality of classes is provability
  have hcls : (s.cls w : WithZero (Quotient (Provable.setoid w P))) = t.cls w := by
    rw [← eval_poly_eq_cls hs, ← eval_poly_eq_cls ht, hpoly]
  exact Quotient.exact (WithZero.coe_inj.mp hcls)

end Completeness

/-! ## The gap at zero -/

mutual

/-- A `SameLen` never changes which parameters occur. -/
theorem SameLen.Derivation.params_eq {w : Nat} {A B : Size P} :
    SameLen.Derivation w A B → A.params = B.params
  | .tryNew h => by
      obtain ⟨n, hA, hB⟩ := SameLen.tryNew_eq_some h
      rw [Size.params_of_usize? hA, Size.params_of_usize? hB]
  | .checked h => by
      obtain ⟨n, hA, hB⟩ := SameLen.checked_eq_some h
      rw [Size.params_of_usize? hA, Size.params_of_usize? hB]
  | .sameLen! h => by
      obtain ⟨n, hA, hB⟩ := SameLen.sameLen!_eq_some h
      rw [Size.params_of_usize? hA, Size.params_of_usize? hB]
  | .symm d => d.params_eq.symm
  | .trans d e => d.params_eq.trans e.params_eq
  | .sum d e | .prod d e => congrArg₂ (· ∪ ·) d.params_eq e.params_eq
  | .sumComm .. | .prodComm .. => Set.union_comm _ _
  | .sumAssoc .. | .prodAssoc .. => Set.union_assoc _ _ _
  | .sumZeroLeft _ | .prodOneLeft _ => Set.empty_union _
  | .sumZeroRight _ | .prodOneRight _ => Set.union_empty _
  | .distribLeft .. => Set.union_union_distrib_left _ _ _
  | .distribRight .. => Set.union_union_distrib_right _ _ _
  | .refl _ => rfl
  | .antisymm d e => Set.Subset.antisymm d.params_subset e.params_subset

/-- An `AtMost` never loses a parameter. -/
theorem AtMost.Derivation.params_subset {w : Nat} {A B : Size P} :
    AtMost.Derivation w A B → A.params ⊆ B.params
  | .tryNew h => by
      obtain ⟨a, b, hA, -⟩ := AtMost.tryNew_eq_some h
      rw [Size.params_of_usize? hA]
      exact Set.empty_subset _
  | .checked h => by
      obtain ⟨a, b, hA, -⟩ := AtMost.checked_eq_some h
      rw [Size.params_of_usize? hA]
      exact Set.empty_subset _
  | .atMost! h | .atLeast! h => by
      obtain ⟨a, b, hA, -⟩ := AtMost.atMost!_eq_some h
      rw [Size.params_of_usize? hA]
      exact Set.empty_subset _
  | .trans d e => d.params_subset.trans e.params_subset
  | .sum d e | .prod d e => Set.union_subset_union d.params_subset e.params_subset
  | .refl _ => subset_rfl
  | .prefixOfSum .. => Set.subset_union_left
  | .suffixOfSum .. => Set.subset_union_right
  | .zero _ => Set.empty_subset _
  | .atMost d => d.params_eq.subset

end

/-- No proof whatsoever shows that `0 * A` has length `0` for every `A`. -/
theorem isEmpty_derivation_zero_mul (w : Nat) (p : P) :
    IsEmpty (SameLen.Derivation w (.prod (.len 0) (.param p)) (.len 0)) := by
  refine ⟨fun d => ?_⟩
  have hparams : (∅ ∪ {p} : Set P) = ∅ := d.params_eq
  rw [Set.empty_union] at hparams
  exact Set.singleton_ne_empty p hparams

/-- The lemmas are complete up to zero: among sizes whose literals are not zero,
they prove every equality of lengths that holds for all parameters. With a
`Len<0>`, not even the comparisons and `antisymm` are enough. -/
theorem lemmas_complete_up_to_zero (w : Nat) (P : Type) :
    (∀ s t : Size P, s.Literals (Size.PositiveLiteral w) →
      t.Literals (Size.PositiveLiteral w) →
      (Provable w s t ↔ ∀ ρ : P → Nat, s.length ρ = t.length ρ)) ∧
    (∀ p : P, (∀ ρ : P → Nat, (Size.prod (.len 0) (.param p)).length ρ =
        (Size.len 0 : Size P).length ρ) ∧
      IsEmpty (SameLen.Derivation w (.prod (.len 0) (.param p)) (.len 0))) := by
  constructor
  · intro s t hs ht
    exact ⟨Provable.length_eq, provable_of_length_eq hs ht⟩
  · intro p
    exact ⟨fun ρ => Nat.zero_mul _, isEmpty_derivation_zero_mul w p⟩

/-- `A + A` and `2 * A`, for a generic `A`. -/
theorem lemmas_complete_double :
    Provable 64 (.sum (.param ()) (.param ())) (.prod (.len 2) (.param ())) := by
  have hsum : (Size.sum (.param ()) (.param ())).Literals (Size.PositiveLiteral 64) :=
    ⟨trivial, trivial⟩
  have hprod : (Size.prod (.len 2) (.param ())).Literals (Size.PositiveLiteral 64) :=
    ⟨⟨by decide, by decide⟩, trivial⟩
  exact ((lemmas_complete_up_to_zero 64 Unit).1 _ _ hsum hprod).mpr
    fun ρ => (Nat.two_mul (ρ ())).symm

end ConstArray
