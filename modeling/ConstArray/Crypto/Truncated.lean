import ConstArray.Crypto.Fake
import ConstArray.Crypto.Hmac

/-! # Truncated digests

`Truncated<D, N>` is a digest again, so it can be truncated further and used in HMAC. The
proof that its output fits into a block is composed of the proofs it was made of.
-/

namespace ConstArray

open Foundation

variable {w : Nat} {σ : Type}

/-- `Truncated<D, N>`. -/
structure Truncated (D : Digest w σ) (N : ConcreteSize) where
  inner : D.State

namespace Truncated

variable {D : Digest w σ} {N : ConcreteSize}

/-- `impl Digest for Truncated<D, N>`, with the `FITS_OUTPUT` of `D: TruncateTo<N>`. -/
abbrev asDigest (D : Digest w σ) (N : ConcreteSize)
    (fitsOutput : AtMost.Derivation w N D.outputSize) : Digest w σ where
  State := Truncated D N
  outputSize := N
  blockSize := D.blockSize
  outputFitsBlock := .trans fitsOutput D.outputFitsBlock
  default := do return { inner := ← D.default }
  update self data := do return { inner := ← D.update self.inner data }
  finalize self := do (← D.finalize self.inner).truncate Array.noDrop fitsOutput.proof

theorem count_le (fitsOutput : AtMost.Derivation w N D.outputSize) :
    N.count ≤ D.outputSize.count :=
  fitsOutput.holds Empty.elim

/-- It streams, and hashes to the start of the full hash. -/
def streaming (fitsOutput : AtMost.Derivation w N D.outputSize) (h : D.Streaming) :
    (asDigest D N fitsOutput).Streaming where
  state data := { inner := h.state data }
  start_eq := by simp only [h.start_eq, pure_bind]
  update_eq data piece := by simp only [h.update_eq, pure_bind]
  hash data := (h.hash data).initial (count_le fitsOutput)
  finalize_eq data := by
    change (do (← D.finalize (h.state data)).truncate Array.noDrop fitsOutput.proof) = _
    rw [h.finalize_eq, pure_bind]
    exact Array.truncate_pure _ _ _

end Truncated

/-- The digests that `D` can be truncated to, in any number of steps. -/
inductive Truncations (D : Digest w σ) : Digest w σ → Type 1 where
  | refl : Truncations D D
  | truncate {E : Digest w σ} (t : Truncations D E) (N : ConcreteSize)
      (fitsOutput : AtMost.Derivation w N E.outputSize) :
      Truncations D (Truncated.asDigest E N fitsOutput)

namespace Truncations

variable {D E : Digest w σ}

def streaming (h : D.Streaming) : {E : Digest w σ} → Truncations D E → E.Streaming
  | _, refl => h
  | _, truncate t _ fitsOutput => Truncated.streaming fitsOutput (t.streaming h)

theorem outputSize_le (t : Truncations D E) : E.outputSize.count ≤ D.outputSize.count := by
  induction t with
  | refl => exact Nat.le_refl _
  | truncate t N fitsOutput ih => exact Nat.le_trans (Truncated.count_le fitsOutput) ih

/-- Only the last truncation counts. -/
theorem flat_hash (t : Truncations D E) (h : D.Streaming) (data : List UInt8) :
    ((t.streaming h).hash data).flat = (h.hash data).flat.take E.outputSize.count := by
  induction t with
  | refl => exact (List.take_of_length_le (by simp)).symm
  | truncate t N fitsOutput ih =>
      have hle := Truncated.count_le fitsOutput
      change (((t.streaming h).hash data).initial hle).flat = _
      rw [Array.flat_initial, ih, List.take_take, Nat.min_eq_left hle]

/-- However often a digest is truncated, its output is the start of the full output, the
composed proof is right, and HMAC over it is the keyed hash with truncated hashes in every
place, for keys of any length and messages in any pieces. -/
theorem hash_and_mac_truncated (h : D.Streaming) (t : Truncations D E) :
    E.outputSize.count ≤ D.outputSize.count ∧ E.outputSize.count ≤ E.blockSize.count ∧
    ∃ hE : E.Streaming,
      (∀ data, E.digest data = pure (hE.hash data) ∧
        (hE.hash data).flat = (h.hash data).flat.take E.outputSize.count) ∧
      ∀ (key : List UInt8) (pieces : List (List UInt8)),
        (do
          let mac ← pieces.foldlM (Hmac.asMac E).update (← Hmac.newFromSlice E key)
          (Hmac.asMac E).finalize mac) = pure (Hmac.value hE key pieces.flatten) :=
  ⟨t.outputSize_le, Hmac.outputSize_le_blockSize E, t.streaming h,
    fun data => ⟨(t.streaming h).digest_eq data, t.flat_hash h data⟩,
    Hmac.foldlM_finalize (t.streaming h)⟩

/-- `Truncated<FakeSha512, Len<32>>`. -/
abbrev sha512_256 (overflowChecks : Bool) : Digest 64 σ :=
  Truncated.asDigest (FakeDigest.sha512 overflowChecks) (.len 32)
    (.atMost! (show AtMost.atMost! 64 (.len 32) (.len 64) = some ⟨⟩ from rfl))

/-- `FakeSha512_256`. -/
def fakeSha512_256 (overflowChecks : Bool) :
    Truncations (FakeDigest.sha512 (σ := σ) overflowChecks) (sha512_256 overflowChecks) :=
  .truncate .refl _ _

/-- `FakeSha224`. -/
def fakeSha224 (overflowChecks : Bool) :
    Truncations (FakeDigest.sha256 (σ := σ) overflowChecks)
      (Truncated.asDigest (FakeDigest.sha256 overflowChecks) (.len 28)
        (.atMost! (show AtMost.atMost! 64 (.len 28) (.len 32) = some ⟨⟩ from rfl))) :=
  .truncate .refl _ _

/-- `FakeSha512_256` and HMAC over it. -/
theorem mac_with_fake_sha512_256 : ∃ digest tag : Array UInt8 (.len 32),
    (sha512_256 true).digest [1, 2] = (pure digest : Exec Unit _) ∧
    digest.flat = ((FakeDigest.sha512Streaming (σ := Unit)).hash [1, 2] :
      (FakeDigest.sha512 (σ := Unit) true).Output).flat.take 32 ∧
    (do
      let mac ← [[1], [2, 3]].foldlM (Hmac.asMac (sha512_256 true)).update
        (← Hmac.newFromSlice _ [7])
      (Hmac.asMac (sha512_256 true)).finalize mac) = (pure tag : Exec Unit _) := by
  obtain ⟨-, -, hE, hdigest, hmac⟩ := @hash_and_mac_truncated 64 Unit (FakeDigest.sha512 true)
    (sha512_256 true) FakeDigest.sha512Streaming (fakeSha512_256 true)
  exact ⟨_, _, (hdigest [1, 2]).1, (hdigest [1, 2]).2, hmac [7] [[1], [2, 3]]⟩

end Truncations

end ConstArray
