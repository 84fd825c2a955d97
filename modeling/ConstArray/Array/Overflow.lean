import ConstArray.Array.Convert
import ConstArray.Size.Completeness
import ConstArray.Size.Soundness

/-! # Casts do not introduce overflow

A cast evaluates the length of its target, with an intermediate sum or product
for every part of the target's structure. A part of a size without a `Len<0>` is
no longer than the whole, so all of them evaluate when the whole length fits into
a word; and whether it fits does not depend on the structure.
-/

namespace ConstArray

open Foundation

variable {w : Nat} {X : Type}

namespace Size

/-- The size itself and all sizes that occur in it. -/
def subsizes {P : Type} : Size P → List (Size P)
  | .param p => [.param p]
  | .len n => [.len n]
  | .sum a b => .sum a b :: (a.subsizes ++ b.subsizes)
  | .prod a b => .prod a b :: (a.subsizes ++ b.subsizes)

theorem mem_subsizes_self {P : Type} (S : Size P) : S ∈ S.subsizes := by
  cases S <;> exact List.mem_cons_self

/-- To evaluate a size is to evaluate all its parts. -/
theorem Evaluates.of_mem_subsizes {S T : ConcreteSize} (hS : S.Evaluates w)
    (hT : T ∈ S.subsizes) : T.Evaluates w := by
  induction S with
  | param p => exact p.elim
  | len n =>
      rw [List.mem_singleton.mp hT]
      exact hS
  | sum a b iha ihb =>
      rcases List.mem_cons.mp hT with rfl | hT
      · exact hS
      · rcases List.mem_append.mp hT with hT | hT
        · exact iha hS.of_sum.1 hT
        · exact ihb hS.of_sum.2 hT
  | prod a b iha ihb =>
      rcases List.mem_cons.mp hT with rfl | hT
      · exact hS
      · rcases List.mem_append.mp hT with hT | hT
        · exact iha hS.of_prod.1 hT
        · exact ihb hS.of_prod.2 hT

theorem forall_subsizes_evaluate_iff {S : ConcreteSize} :
    (∀ T ∈ S.subsizes, T.Evaluates w) ↔ S.Evaluates w :=
  ⟨fun h => h S S.mem_subsizes_self, fun h _ hT => h.of_mem_subsizes hT⟩

theorem count_pos_of_literals {S : ConcreteSize} (hS : S.Literals (1 ≤ ·)) : 0 < S.count := by
  induction S with
  | param p => exact p.elim
  | len n => exact hS
  | sum a b iha ihb => exact Nat.add_pos_left (iha hS.1) _
  | prod a b iha ihb => exact Nat.mul_pos (iha hS.1) (ihb hS.2)

/-- The exact length decides whether the checked evaluation succeeds. With a
`Len<0>` it would not: in `0 * (16 * 17)` the part is longer than the whole. -/
theorem evaluates_of_count_lt {S : ConcreteSize} (hS : S.Literals (1 ≤ ·))
    (hlt : S.count < 2 ^ w) : S.Evaluates w := by
  induction S with
  | param p => exact p.elim
  | len n => exact literal_eq_some.mpr ⟨rfl, hlt⟩
  | sum a b iha ihb =>
      rw [count_sum] at hlt
      have ha : a.usize? w = some a.count := iha hS.1 (by omega)
      have hb : b.usize? w = some b.count := ihb hS.2 (by omega)
      rw [Evaluates, usize?, ha, hb]
      exact checkedAdd_eq_some.mpr ⟨rfl, hlt⟩
  | prod a b iha ihb =>
      rw [count_prod] at hlt
      -- each factor is multiplied by at least one
      have hle : a.count ≤ a.count * b.count :=
        Nat.le_mul_of_pos_right _ (count_pos_of_literals hS.2)
      have hle' : b.count ≤ a.count * b.count :=
        Nat.le_mul_of_pos_left _ (count_pos_of_literals hS.1)
      have ha : a.usize? w = some a.count := iha hS.1 (by omega)
      have hb : b.usize? w = some b.count := ihb hS.2 (by omega)
      rw [Evaluates, usize?, ha, hb]
      exact checkedMul_eq_some.mpr ⟨rfl, hlt⟩

theorem evaluates_iff_count_lt {S : ConcreteSize} (hS : S.Literals (1 ≤ ·)) :
    S.Evaluates w ↔ S.count < 2 ^ w :=
  ⟨Evaluates.count_lt, evaluates_of_count_lt hS⟩

end Size

namespace Array

/-- A cast along a derived proof between sizes without a `Len<0>` neither
introduces nor removes an overflow in a part of the length, passes the layout
checks of the target when the source passes its own, and keeps the elements. -/
theorem lemma_casts_do_not_overflow {A B : ConcreteSize} (hA : A.Literals (1 ≤ ·))
    (hB : B.Literals (1 ≤ ·)) (d : SameLen.Derivation w A B) :
    ((∀ T ∈ A.subsizes, T.Evaluates w) ↔ ∀ T ∈ B.subsizes, T.Evaluates w) ∧
    (∀ e : Layout, A.layoutOk w e = some () ↔ B.layoutOk w e = some ()) ∧
    (∀ a : Array X A, ∃ b, a.cast d.proof = some b ∧ b.flat = a.flat) := by
  have hevaluates : A.Evaluates w ↔ B.Evaluates w := by
    rw [Size.evaluates_iff_count_lt hA, Size.evaluates_iff_count_lt hB, d.count_eq]
  refine ⟨?_, ?_, ?_⟩
  · rw [Size.forall_subsizes_evaluate_iff, Size.forall_subsizes_evaluate_iff]
    exact hevaluates
  · intro e
    rw [Size.layoutOk_eq_some, Size.layoutOk_eq_some, hevaluates, d.count_eq]
  · intro a
    exact exists_cast d.proof d.count_eq a

/-- From `2 + 3` to `3 + 2`, by way of `(2 + 3) + 0 * (16 * 17)`: the detour has a
`Len<0>`, and overflows eight bits. -/
theorem lemma_casts_do_not_overflow_detour :
    (Size.sum (.sum (.len 2) (.len 3)) (.prod (.len 0) (.prod (.len 16) (.len 17))) :
      ConcreteSize).usize? 8 = none ∧
    ((∀ T ∈ (Size.sum (.len 2) (.len 3) : ConcreteSize).subsizes, T.Evaluates 8) ↔
      ∀ T ∈ (Size.sum (.len 3) (.len 2) : ConcreteSize).subsizes, T.Evaluates 8) := by
  let S : ConcreteSize := .sum (.len 2) (.len 3)
  let zero : ConcreteSize := .prod (.prod (.len 0) (.len 16)) (.len 17)
  have hzero : SameLen.sameLen! 8 (.len 0) zero = some ⟨⟩ := by decide
  have insert : SameLen.Derivation 8 S (.sum S (.prod (.len 0) (.prod (.len 16) (.len 17)))) :=
    .trans (.symm (.sumZeroRight S)) (.sum (.refl S) (.trans (.sameLen! hzero) (.prodAssoc ..)))
  exact ⟨by decide, (lemma_casts_do_not_overflow (X := Unit) (by decide) (by decide)
    (.trans (.trans insert (.symm insert)) (.sumComm ..))).1⟩

end Array

end ConstArray
