import ConstArray.Size.Basic

/-! # Length proofs

`SameLen<A, B>` and `AtMost<A, B>` are zero-sized: a proof carries no data, and
its worth is only in how it was obtained. `SameLen` and `AtMost` are these
values with the constructors of the public API, and a derivation records one way
of composing a proof from them. `try_new`, `checked` and the macros evaluate
both lengths as constants; the other constructors evaluate nothing.
-/

namespace ConstArray

variable {P : Type}

/-- The proof value `SameLen<A, B>`, a `PhantomData`. -/
structure SameLen (A B : Size P) : Type where
  deriving DecidableEq, Repr

/-- The proof value `AtMost<A, B>`, a `PhantomData`. -/
structure AtMost (A B : Size P) : Type where
  deriving DecidableEq, Repr

/-- `AtLeast<A, B>`. -/
abbrev AtLeast (A B : Size P) : Type := AtMost B A

namespace SameLen

variable {A B C D : Size P}

/-- `SameLen::try_new`. The outer option is the evaluation of the two constants,
the inner one the value returned. -/
def tryNew (w : Nat) (A B : Size P) : Option (Option (SameLen A B)) := do
  let a ← A.usize? w
  let b ← B.usize? w
  return if a = b then some ⟨⟩ else none

/-- `SameLen::checked`, whose assertion runs during constant evaluation. -/
def checked (w : Nat) (A B : Size P) : Option (SameLen A B) := do
  let a ← A.usize? w
  let b ← B.usize? w
  if a = b then return ⟨⟩ else none

/-- The `same_len!` macro: the two array types unify, and `try_new` succeeds. -/
def sameLen! (w : Nat) (A B : Size P) : Option (SameLen A B) := do
  let a ← A.usize? w
  let b ← B.usize? w
  if a = b then
    match ← tryNew w A B with
    | some proof => return proof
    | none => none
  else none

def symm (_ : SameLen A B) : SameLen B A := ⟨⟩
def trans (_ : SameLen A B) (_ : SameLen B C) : SameLen A C := ⟨⟩
def sum (_ : SameLen A B) (_ : SameLen C D) : SameLen (.sum A C) (.sum B D) := ⟨⟩
def prod (_ : SameLen A B) (_ : SameLen C D) : SameLen (.prod A C) (.prod B D) := ⟨⟩
def sumComm : SameLen (.sum A B) (.sum B A) := ⟨⟩
def sumAssoc : SameLen (.sum (.sum A B) C) (.sum A (.sum B C)) := ⟨⟩
def sumZeroLeft : SameLen (.sum (.len 0) A) A := ⟨⟩
def sumZeroRight : SameLen (.sum A (.len 0)) A := ⟨⟩
def prodComm : SameLen (.prod A B) (.prod B A) := ⟨⟩
def prodAssoc : SameLen (.prod (.prod A B) C) (.prod A (.prod B C)) := ⟨⟩
def prodOneLeft : SameLen (.prod (.len 1) A) A := ⟨⟩
def prodOneRight : SameLen (.prod A (.len 1)) A := ⟨⟩
def distribLeft : SameLen (.prod A (.sum B C)) (.sum (.prod A B) (.prod A C)) := ⟨⟩
def distribRight : SameLen (.prod (.sum A B) C) (.sum (.prod A C) (.prod B C)) := ⟨⟩
def refl : SameLen A A := ⟨⟩
def atMost (_ : SameLen A B) : AtMost A B := ⟨⟩

/-- A `try_new` that returns a proof has compared two evaluated constants. -/
theorem tryNew_eq_some {w : Nat} {p : SameLen A B} (h : tryNew w A B = some (some p)) :
    ∃ n, A.usize? w = some n ∧ B.usize? w = some n := by
  simp only [tryNew, Option.bind_eq_bind, Option.bind_eq_some_iff] at h
  obtain ⟨a, ha, b, hb, hcmp⟩ := h
  by_cases heq : a = b
  · exact ⟨a, ha, heq ▸ hb⟩
  · simp [heq] at hcmp

theorem checked_eq_some {w : Nat} {p : SameLen A B} (h : checked w A B = some p) :
    ∃ n, A.usize? w = some n ∧ B.usize? w = some n := by
  simp only [checked, Option.bind_eq_bind, Option.bind_eq_some_iff] at h
  obtain ⟨a, ha, b, hb, hcmp⟩ := h
  by_cases heq : a = b
  · exact ⟨a, ha, heq ▸ hb⟩
  · simp [heq] at hcmp

theorem sameLen!_eq_some {w : Nat} {p : SameLen A B} (h : sameLen! w A B = some p) :
    ∃ n, A.usize? w = some n ∧ B.usize? w = some n := by
  simp only [sameLen!, Option.bind_eq_bind, Option.bind_eq_some_iff] at h
  obtain ⟨a, ha, b, hb, hcmp⟩ := h
  by_cases heq : a = b
  · exact ⟨a, ha, heq ▸ hb⟩
  · simp [heq] at hcmp

/-- The macro accepts two sizes of the same evaluated length. -/
theorem sameLen!_of_usize? {w n : Nat} (hA : A.usize? w = some n) (hB : B.usize? w = some n) :
    sameLen! w A B = some ⟨⟩ := by
  simp [sameLen!, tryNew, hA, hB]

end SameLen

namespace AtMost

variable {A B C D : Size P}

/-- `AtMost::try_new`. -/
def tryNew (w : Nat) (A B : Size P) : Option (Option (AtMost A B)) := do
  let a ← A.usize? w
  let b ← B.usize? w
  return if a ≤ b then some ⟨⟩ else none

/-- `AtMost::checked`. -/
def checked (w : Nat) (A B : Size P) : Option (AtMost A B) := do
  let a ← A.usize? w
  let b ← B.usize? w
  if a ≤ b then return ⟨⟩ else none

/-- The `at_most!` macro: `B::USIZE - A::USIZE` does not underflow, and
`try_new` succeeds. -/
def atMost! (w : Nat) (A B : Size P) : Option (AtMost A B) := do
  let b ← B.usize? w
  let a ← A.usize? w
  if a ≤ b then
    match ← tryNew w A B with
    | some proof => return proof
    | none => none
  else none

/-- The `at_least!` macro. -/
def atLeast! (w : Nat) (A B : Size P) : Option (AtLeast A B) := atMost! w B A

def trans (_ : AtMost A B) (_ : AtMost B C) : AtMost A C := ⟨⟩
def sum (_ : AtMost A B) (_ : AtMost C D) : AtMost (.sum A C) (.sum B D) := ⟨⟩
def prod (_ : AtMost A B) (_ : AtMost C D) : AtMost (.prod A C) (.prod B D) := ⟨⟩
def antisymm (_ : AtMost A B) (_ : AtMost B A) : SameLen A B := ⟨⟩
def refl : AtMost A A := ⟨⟩
def prefixOfSum : AtMost A (.sum A B) := ⟨⟩
def suffixOfSum : AtMost B (.sum A B) := ⟨⟩
def zero : AtMost (.len 0) A := ⟨⟩

theorem tryNew_eq_some {w : Nat} {p : AtMost A B} (h : tryNew w A B = some (some p)) :
    ∃ a b, A.usize? w = some a ∧ B.usize? w = some b ∧ a ≤ b := by
  simp only [tryNew, Option.bind_eq_bind, Option.bind_eq_some_iff] at h
  obtain ⟨a, ha, b, hb, hcmp⟩ := h
  by_cases hle : a ≤ b
  · exact ⟨a, b, ha, hb, hle⟩
  · simp [hle] at hcmp

theorem checked_eq_some {w : Nat} {p : AtMost A B} (h : checked w A B = some p) :
    ∃ a b, A.usize? w = some a ∧ B.usize? w = some b ∧ a ≤ b := by
  simp only [checked, Option.bind_eq_bind, Option.bind_eq_some_iff] at h
  obtain ⟨a, ha, b, hb, hcmp⟩ := h
  by_cases hle : a ≤ b
  · exact ⟨a, b, ha, hb, hle⟩
  · simp [hle] at hcmp

theorem atMost!_eq_some {w : Nat} {p : AtMost A B} (h : atMost! w A B = some p) :
    ∃ a b, A.usize? w = some a ∧ B.usize? w = some b ∧ a ≤ b := by
  simp only [atMost!, Option.bind_eq_bind, Option.bind_eq_some_iff] at h
  obtain ⟨b, hb, a, ha, hcmp⟩ := h
  by_cases hle : a ≤ b
  · exact ⟨a, b, ha, hb, hle⟩
  · simp [hle] at hcmp

end AtMost

/-! ## Derivations -/

mutual

/-- The ways to obtain a `SameLen<A, B>` from the public constructors. -/
inductive SameLen.Derivation (w : Nat) : Size P → Size P → Type where
  | tryNew {A B : Size P} {p : SameLen A B} (h : SameLen.tryNew w A B = some (some p)) :
      SameLen.Derivation w A B
  | checked {A B : Size P} {p : SameLen A B} (h : SameLen.checked w A B = some p) :
      SameLen.Derivation w A B
  | sameLen! {A B : Size P} {p : SameLen A B} (h : SameLen.sameLen! w A B = some p) :
      SameLen.Derivation w A B
  | symm {A B : Size P} (d : SameLen.Derivation w A B) : SameLen.Derivation w B A
  | trans {A B C : Size P} (d : SameLen.Derivation w A B) (e : SameLen.Derivation w B C) :
      SameLen.Derivation w A C
  | sum {A B C D : Size P} (d : SameLen.Derivation w A B) (e : SameLen.Derivation w C D) :
      SameLen.Derivation w (.sum A C) (.sum B D)
  | prod {A B C D : Size P} (d : SameLen.Derivation w A B) (e : SameLen.Derivation w C D) :
      SameLen.Derivation w (.prod A C) (.prod B D)
  | sumComm (A B : Size P) : SameLen.Derivation w (.sum A B) (.sum B A)
  | sumAssoc (A B C : Size P) :
      SameLen.Derivation w (.sum (.sum A B) C) (.sum A (.sum B C))
  | sumZeroLeft (A : Size P) : SameLen.Derivation w (.sum (.len 0) A) A
  | sumZeroRight (A : Size P) : SameLen.Derivation w (.sum A (.len 0)) A
  | prodComm (A B : Size P) : SameLen.Derivation w (.prod A B) (.prod B A)
  | prodAssoc (A B C : Size P) :
      SameLen.Derivation w (.prod (.prod A B) C) (.prod A (.prod B C))
  | prodOneLeft (A : Size P) : SameLen.Derivation w (.prod (.len 1) A) A
  | prodOneRight (A : Size P) : SameLen.Derivation w (.prod A (.len 1)) A
  | distribLeft (A B C : Size P) :
      SameLen.Derivation w (.prod A (.sum B C)) (.sum (.prod A B) (.prod A C))
  | distribRight (A B C : Size P) :
      SameLen.Derivation w (.prod (.sum A B) C) (.sum (.prod A C) (.prod B C))
  | refl (A : Size P) : SameLen.Derivation w A A
  | antisymm {A B : Size P} (d : AtMost.Derivation w A B) (e : AtMost.Derivation w B A) :
      SameLen.Derivation w A B

/-- The ways to obtain an `AtMost<A, B>` from the public constructors. -/
inductive AtMost.Derivation (w : Nat) : Size P → Size P → Type where
  | tryNew {A B : Size P} {p : AtMost A B} (h : AtMost.tryNew w A B = some (some p)) :
      AtMost.Derivation w A B
  | checked {A B : Size P} {p : AtMost A B} (h : AtMost.checked w A B = some p) :
      AtMost.Derivation w A B
  | atMost! {A B : Size P} {p : AtMost A B} (h : AtMost.atMost! w A B = some p) :
      AtMost.Derivation w A B
  | atLeast! {A B : Size P} {p : AtLeast B A} (h : AtMost.atLeast! w B A = some p) :
      AtMost.Derivation w A B
  | trans {A B C : Size P} (d : AtMost.Derivation w A B) (e : AtMost.Derivation w B C) :
      AtMost.Derivation w A C
  | sum {A B C D : Size P} (d : AtMost.Derivation w A B) (e : AtMost.Derivation w C D) :
      AtMost.Derivation w (.sum A C) (.sum B D)
  | prod {A B C D : Size P} (d : AtMost.Derivation w A B) (e : AtMost.Derivation w C D) :
      AtMost.Derivation w (.prod A C) (.prod B D)
  | refl (A : Size P) : AtMost.Derivation w A A
  | prefixOfSum (A B : Size P) : AtMost.Derivation w A (.sum A B)
  | suffixOfSum (A B : Size P) : AtMost.Derivation w B (.sum A B)
  | zero (A : Size P) : AtMost.Derivation w (.len 0) A
  | atMost {A B : Size P} (d : SameLen.Derivation w A B) : AtMost.Derivation w A B

end

mutual

/-- The proof that a derivation builds, constructor by constructor. -/
def SameLen.Derivation.proof {w : Nat} {A B : Size P} :
    SameLen.Derivation w A B → SameLen A B
  | .tryNew (p := p) _ => p
  | .checked (p := p) _ => p
  | .sameLen! (p := p) _ => p
  | .symm d => d.proof.symm
  | .trans d e => d.proof.trans e.proof
  | .sum d e => d.proof.sum e.proof
  | .prod d e => d.proof.prod e.proof
  | .sumComm .. => .sumComm
  | .sumAssoc .. => .sumAssoc
  | .sumZeroLeft _ => .sumZeroLeft
  | .sumZeroRight _ => .sumZeroRight
  | .prodComm .. => .prodComm
  | .prodAssoc .. => .prodAssoc
  | .prodOneLeft _ => .prodOneLeft
  | .prodOneRight _ => .prodOneRight
  | .distribLeft .. => .distribLeft
  | .distribRight .. => .distribRight
  | .refl _ => .refl
  | .antisymm d e => d.proof.antisymm e.proof

/-- The proof that a derivation builds, constructor by constructor. -/
def AtMost.Derivation.proof {w : Nat} {A B : Size P} :
    AtMost.Derivation w A B → AtMost A B
  | .tryNew (p := p) _ => p
  | .checked (p := p) _ => p
  | .atMost! (p := p) _ => p
  | .atLeast! (p := p) _ => p
  | .trans d e => d.proof.trans e.proof
  | .sum d e => d.proof.sum e.proof
  | .prod d e => d.proof.prod e.proof
  | .refl _ => .refl
  | .prefixOfSum .. => .prefixOfSum
  | .suffixOfSum .. => .suffixOfSum
  | .zero _ => .zero
  | .atMost d => d.proof.atMost

end

/-! ## The invariant

The comments of the source state it about `USIZE`. That is not inductive, since
a derivation may pass through sizes whose length overflows; about the exact
lengths it is. -/

/-- The lengths that `SameLen<A, B>` relates, for every choice of the parameters. -/
def SameLen.Holds (A B : Size P) : Prop := ∀ ρ : P → Nat, A.length ρ = B.length ρ

/-- The lengths that `AtMost<A, B>` relates, for every choice of the parameters. -/
def AtMost.Holds (A B : Size P) : Prop := ∀ ρ : P → Nat, A.length ρ ≤ B.length ρ

theorem SameLen.holds_of_usize? {w n : Nat} {A B : Size P} (hA : A.usize? w = some n)
    (hB : B.usize? w = some n) : SameLen.Holds A B := fun ρ =>
  (Size.length_of_usize? hA ρ).1.trans (Size.length_of_usize? hB ρ).1.symm

theorem AtMost.holds_of_usize? {w a b : Nat} {A B : Size P} (hA : A.usize? w = some a)
    (hB : B.usize? w = some b) (hle : a ≤ b) : AtMost.Holds A B := fun ρ => by
  rw [(Size.length_of_usize? hA ρ).1, (Size.length_of_usize? hB ρ).1]
  exact hle

mutual

/-- Every derivation relates exact lengths, whatever it passes through. -/
theorem SameLen.Derivation.holds {w : Nat} {A B : Size P} :
    SameLen.Derivation w A B → SameLen.Holds A B
  | .tryNew h => by
      obtain ⟨n, hA, hB⟩ := SameLen.tryNew_eq_some h
      exact SameLen.holds_of_usize? hA hB
  | .checked h => by
      obtain ⟨n, hA, hB⟩ := SameLen.checked_eq_some h
      exact SameLen.holds_of_usize? hA hB
  | .sameLen! h => by
      obtain ⟨n, hA, hB⟩ := SameLen.sameLen!_eq_some h
      exact SameLen.holds_of_usize? hA hB
  | .symm d => fun ρ => (d.holds ρ).symm
  -- no bound on the length in the middle is needed
  | .trans d e => fun ρ => (d.holds ρ).trans (e.holds ρ)
  | .sum d e => fun ρ => congrArg₂ (· + ·) (d.holds ρ) (e.holds ρ)
  | .prod d e => fun ρ => congrArg₂ (· * ·) (d.holds ρ) (e.holds ρ)
  | .sumComm .. => fun _ => Nat.add_comm _ _
  | .sumAssoc .. => fun _ => Nat.add_assoc _ _ _
  | .sumZeroLeft _ => fun _ => Nat.zero_add _
  | .sumZeroRight _ => fun _ => Nat.add_zero _
  | .prodComm .. => fun _ => Nat.mul_comm _ _
  | .prodAssoc .. => fun _ => Nat.mul_assoc _ _ _
  | .prodOneLeft _ => fun _ => Nat.one_mul _
  | .prodOneRight _ => fun _ => Nat.mul_one _
  | .distribLeft .. => fun _ => Nat.mul_add _ _ _
  | .distribRight .. => fun _ => Nat.add_mul _ _ _
  | .refl _ => fun _ => rfl
  | .antisymm d e => fun ρ => Nat.le_antisymm (d.holds ρ) (e.holds ρ)

/-- Every derivation relates exact lengths, whatever it passes through. -/
theorem AtMost.Derivation.holds {w : Nat} {A B : Size P} :
    AtMost.Derivation w A B → AtMost.Holds A B
  | .tryNew h => by
      obtain ⟨a, b, hA, hB, hle⟩ := AtMost.tryNew_eq_some h
      exact AtMost.holds_of_usize? hA hB hle
  | .checked h => by
      obtain ⟨a, b, hA, hB, hle⟩ := AtMost.checked_eq_some h
      exact AtMost.holds_of_usize? hA hB hle
  | .atMost! h | .atLeast! h => by
      obtain ⟨a, b, hA, hB, hle⟩ := AtMost.atMost!_eq_some h
      exact AtMost.holds_of_usize? hA hB hle
  | .trans d e => fun ρ => Nat.le_trans (d.holds ρ) (e.holds ρ)
  | .sum d e => fun ρ => Nat.add_le_add (d.holds ρ) (e.holds ρ)
  | .prod d e => fun ρ => Nat.mul_le_mul (d.holds ρ) (e.holds ρ)
  | .refl _ => fun _ => Nat.le_refl _
  | .prefixOfSum .. => fun _ => Nat.le_add_right _ _
  | .suffixOfSum .. => fun _ => Nat.le_add_left _ _
  | .zero _ => fun _ => Nat.zero_le _
  | .atMost d => fun ρ => Nat.le_of_eq (d.holds ρ)

end

end ConstArray
