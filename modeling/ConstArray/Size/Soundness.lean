import ConstArray.Size.Proof

/-! # Soundness of the proof calculus

Unsafe code evaluates the lengths of both sides before it relies on a proof, so
soundness is about the two ends of a derivation only. In between, a derivation
may pass through sizes whose length overflows and is never evaluated.
-/

namespace ConstArray

variable {w : Nat} {A B : ConcreteSize}

/-- A derived `SameLen` relates the lengths of usable sizes. -/
theorem SameLen.Derivation.count_eq (d : SameLen.Derivation w A B) : A.count = B.count :=
  d.holds Empty.elim

/-- A derived `AtMost` relates the lengths of usable sizes. -/
theorem AtMost.Derivation.count_le (d : AtMost.Derivation w A B) : A.count ≤ B.count :=
  d.holds Empty.elim

/-- Whatever a derivation passes through, its ends are related as claimed when
their constants evaluate. -/
theorem derivation_sound (w : Nat) :
    (∀ {A B : ConcreteSize}, SameLen.Derivation w A B →
      ∀ a b, A.usize? w = some a → B.usize? w = some b → a = b) ∧
    (∀ {A B : ConcreteSize}, AtMost.Derivation w A B →
      ∀ a b, A.usize? w = some a → B.usize? w = some b → a ≤ b) := by
  constructor
  · intro A B d a b hA hB
    rw [← (Size.length_of_usize? hA Empty.elim).1, ← (Size.length_of_usize? hB Empty.elim).1]
    exact d.holds _
  · intro A B d a b hA hB
    rw [← (Size.length_of_usize? hA Empty.elim).1, ← (Size.length_of_usize? hB Empty.elim).1]
    exact d.holds _

/-- Regrouping `(0 * 16) * 17` passes through `0 * (16 * 17)`, which overflows
eight bits in a part that is multiplied by zero. -/
theorem derivation_sound_through_overflow :
    (Size.prod (.len 0) (.prod (.len 16) (.len 17)) : ConcreteSize).usize? 8 = none ∧
    ∀ a b, (Size.prod (.prod (.len 0) (.len 16)) (.len 17) : ConcreteSize).usize? 8 = some a →
      (Size.prod (.prod (.len 0) (.len 17)) (.len 16) : ConcreteSize).usize? 8 = some b → a = b :=
  ⟨by decide, (derivation_sound 8).1
    (.trans (.prodAssoc _ _ _)
      (.trans (.prod (.refl _) (.prodComm _ _)) (.symm (.prodAssoc _ _ _))))⟩

end ConstArray
