import ConstArray.Crypto.Fake

/-! # HMAC

`Hmac<D>` keeps two digest states, which have absorbed the key block XORed with
one pad each. Over a digest that streams it is the keyed hash of RFC 2104, for
keys of any length and messages in any pieces.
-/

namespace ConstArray

open Foundation

variable {w : Nat} {σ : Type} {S : ConcreteSize}

/-- `block[..key.len()].copy_from_slice(key)`: the range must be in bounds. -/
def Array.copyFromSlice (block : Array UInt8 S) (key : List UInt8) : Exec σ (Array UInt8 S) :=
  if h : key.length ≤ S.count then
    pure (ofList S (key ++ block.flat.drop key.length) (by simp [h]))
  else Exec.panic

/-- `Hmac<D>`. -/
structure Hmac (D : Digest w σ) where
  inner : D.State
  outer : D.State

namespace Hmac

variable (D : Digest w σ)

/-- The `block` of `Hmac::new_from_slice`. -/
def block (key : List UInt8) : Exec σ (Array UInt8 D.blockSize) := do
  if key.length > D.blockSize.count then
    Array.padFrom Array.noDrop pure (← D.digest key) D.outputFitsBlock.proof 0
  else
    let block ← Array.default Array.noDrop D.blockSize (pure 0)
    block.copyFromSlice key

/-- `Hmac::new_from_slice`. -/
def newFromSlice (key : List UInt8) : Exec σ (Hmac D) := do
  let block ← block D key
  let ipad ← block.mapRef Array.noDrop fun b => pure (b ^^^ 0x36)
  let inner ← D.chain (← D.default) ipad.flat
  let opad ← block.mapRef Array.noDrop fun b => pure (b ^^^ 0x5c)
  let outer ← D.chain (← D.default) opad.flat
  return { inner, outer }

/-- `impl Mac for Hmac<D>`. -/
abbrev asMac : Mac σ where
  State := Hmac D
  keySize := D.outputSize
  tagSize := D.outputSize
  new key := newFromSlice D key.flat
  update self data := do
    let inner ← D.update self.inner data
    return { self with inner }
  finalize self := do
    let inner ← D.finalize self.inner
    D.finalize (← D.chain self.outer inner.flat)

/-! ## The keyed hash -/

variable {D} (h : D.Streaming)

/-- The key, hashed if it is longer than a block. -/
def shortKey (key : List UInt8) : List UInt8 :=
  if key.length > D.blockSize.count then (h.hash key).flat else key

/-- The key block: the short key and zeros. -/
def keyBlock (key : List UInt8) : List UInt8 :=
  shortKey h key ++ .replicate (D.blockSize.count - (shortKey h key).length) 0

/-- `H((K ⊕ opad) ‖ H((K ⊕ ipad) ‖ data))`. -/
def value (key data : List UInt8) : D.Output :=
  h.hash ((keyBlock h key).map (· ^^^ 0x5c) ++
    (h.hash ((keyBlock h key).map (· ^^^ 0x36) ++ data)).flat)

/-- The proof that the digest carries is about the lengths. -/
theorem outputSize_le_blockSize (D : Digest w σ) : D.outputSize.count ≤ D.blockSize.count :=
  D.outputFitsBlock.holds Empty.elim

theorem length_shortKey_le (key : List UInt8) :
    (shortKey h key).length ≤ D.blockSize.count := by
  unfold shortKey
  split
  · rw [Array.length_flat]
    exact outputSize_le_blockSize D
  next hlong => exact Nat.le_of_not_lt hlong

/-- A key that fits into a block is used as it is. -/
theorem shortKey_of_le {key : List UInt8} (hle : key.length ≤ D.blockSize.count) :
    shortKey h key = key :=
  if_neg (Nat.not_lt.mpr hle)

theorem length_keyBlock (key : List UInt8) : (keyBlock h key).length = D.blockSize.count := by
  have hle := length_shortKey_le h key
  rw [keyBlock, List.length_append, List.length_replicate]
  omega

/-- Both branches build the key block. -/
theorem block_eq (key : List UInt8) :
    block D key = pure (.ofList D.blockSize (keyBlock h key) (length_keyBlock h key)) := by
  unfold block
  split
  next hlong =>
    rw [h.digest_eq, pure_bind]
    refine (Array.padFrom_pure _ (outputSize_le_blockSize D) _ 0).trans (congrArg pure ?_)
    ext1
    have hshort : shortKey h key = (h.hash key).flat := if_pos hlong
    rw [Array.flat_padded, Array.flat_ofList, keyBlock, hshort, Array.length_flat]
  next hshort =>
    have hle : key.length ≤ D.blockSize.count := Nat.le_of_not_lt hshort
    rw [Array.default_pure Array.noDrop, pure_bind,
      Array.copyFromSlice, dif_pos hle]
    refine congrArg pure ?_
    ext1
    rw [Array.flat_ofList, Array.flat_ofList, keyBlock, shortKey_of_le h hle,
      Array.flat_tabulate, List.map_const', List.drop_replicate, List.length_range]

/-- Both states have absorbed their pad. -/
theorem newFromSlice_eq (key : List UInt8) :
    newFromSlice D key = pure
      { inner := h.state ((keyBlock h key).map (· ^^^ 0x36))
        outer := h.state ((keyBlock h key).map (· ^^^ 0x5c)) } := by
  have hchain (data : List UInt8) : (do D.chain (← D.default) data) = pure (h.state data) := by
    have hstart := congrArg (· >>= fun s => D.chain s data) h.start_eq
    simp only [pure_bind, h.chain_eq, List.nil_append] at hstart
    exact hstart
  rw [newFromSlice, block_eq h, pure_bind, Array.mapRef_pure Array.noDrop _ fun _ _ => rfl,
    pure_bind, ← bind_assoc, hchain, pure_bind,
    Array.mapRef_pure Array.noDrop _ fun _ _ => rfl, pure_bind, ← bind_assoc, hchain, pure_bind]
  simp only [Array.flat_mapValues, Array.flat_ofList]

/-- A MAC under a key of any length absorbs its message. -/
def absorbing (key : List UInt8) : Absorbing (newFromSlice D key) (asMac D).update where
  state data :=
    { inner := h.state ((keyBlock h key).map (· ^^^ 0x36) ++ data)
      outer := h.state ((keyBlock h key).map (· ^^^ 0x5c)) }
  start_eq := by rw [newFromSlice_eq h, List.append_nil]
  update_eq data piece := by
    simp only [h.update_eq, pure_bind, List.append_assoc]

theorem finalize_eq (key data : List UInt8) :
    (asMac D).finalize ((absorbing h key).state data) = pure (value h key data) := by
  simp only [asMac, absorbing, h.finalize_eq, h.chain_eq, pure_bind, value]

/-- HMAC is again a MAC that streams. -/
def streaming : (asMac D).Streaming where
  absorbing key := absorbing h key.flat
  mac key := value h key.flat
  finalize_eq key := finalize_eq h key.flat

theorem foldlM_finalize (key : List UInt8) (pieces : List (List UInt8)) :
    (do (asMac D).finalize (← pieces.foldlM (asMac D).update (← newFromSlice D key))) =
      pure (value h key pieces.flatten) := by
  rw [← bind_assoc, (absorbing h key).foldlM_eq, pure_bind, finalize_eq]

theorem foldlM_verify (key : List UInt8) (pieces : List (List UInt8)) (tag : D.Output) :
    (do (asMac D).verify (← pieces.foldlM (asMac D).update (← newFromSlice D key)) tag) =
      pure (if value h key pieces.flatten = tag then .ok () else .error ⟨⟩) := by
  rw [← bind_assoc, (absorbing h key).foldlM_eq, pure_bind, Mac.verify_eq (finalize_eq h key _)]

/-- Keys with the same key block are the same key. -/
theorem value_congr {key key' : List UInt8} (hkey : keyBlock h key = keyBlock h key')
    (data : List UInt8) : value h key data = value h key' data := by
  rw [value, value, hkey]

theorem keyBlock_hash {key : List UInt8} (hlong : D.blockSize.count < key.length) :
    keyBlock h key = keyBlock h (h.hash key).flat := by
  have hfits : (h.hash key).flat.length ≤ D.blockSize.count := by
    rw [Array.length_flat]
    exact outputSize_le_blockSize D
  have hshort : shortKey h key = (h.hash key).flat := if_pos hlong
  rw [keyBlock, keyBlock, hshort, shortKey_of_le h hfits]

theorem keyBlock_append_zeros {key : List UInt8} {n : Nat}
    (hle : key.length + n ≤ D.blockSize.count) :
    keyBlock h (key ++ .replicate n 0) = keyBlock h key := by
  rw [keyBlock, keyBlock, shortKey_of_le h (by simpa using hle), shortKey_of_le h (by omega),
    List.append_assoc, ← List.replicate_add, List.length_append, List.length_replicate]
  congr 2
  omega

/-- Over any digest that streams, HMAC never panics and is the keyed hash of RFC 2104:
for keys of any length, and messages in pieces of any lengths. A key that is
too long stands for its hash, and zeros at the end of a short key make no difference. -/
theorem is_keyed_hash :
    (∀ (key : List UInt8) (pieces : List (List UInt8)),
      (do (asMac D).finalize (← pieces.foldlM (asMac D).update (← newFromSlice D key))) =
        pure (value h key pieces.flatten)) ∧
    (∀ (key : List UInt8) (pieces : List (List UInt8)) (tag : D.Output),
      (do (asMac D).verify (← pieces.foldlM (asMac D).update (← newFromSlice D key)) tag) =
        pure (if value h key pieces.flatten = tag then .ok () else .error ⟨⟩)) ∧
    (∀ key data : List UInt8, D.blockSize.count < key.length →
      value h key data = value h (h.hash key).flat data) ∧
    (∀ (key data : List UInt8) (n : Nat), key.length + n ≤ D.blockSize.count →
      value h (key ++ .replicate n 0) data = value h key data) := by
  refine ⟨foldlM_finalize h, foldlM_verify h, ?_, ?_⟩
  · intro key data hlong
    exact value_congr h (keyBlock_hash h hlong) data
  · intro key data n hle
    exact value_congr h (keyBlock_append_zeros h hle) data

/-- A key that is one byte too long, and a message in three pieces. -/
theorem keyed_hash_with_fake_sha256 :
    ∃ h : (FakeDigest.sha256 (σ := Unit) true).Streaming,
      (do (asMac (FakeDigest.sha256 (σ := Unit) true)).finalize (← [[1, 2], [], [3]].foldlM
        (asMac (FakeDigest.sha256 true)).update (← newFromSlice _ (.replicate 65 7)))) =
          pure (value h (.replicate 65 7) [1, 2, 3]) ∧
      value h (.replicate 65 7) [1, 2, 3] = value h (h.hash (.replicate 65 7)).flat [1, 2, 3] := by
  obtain ⟨hmac, -, hlong, -⟩ := @is_keyed_hash 64 Unit (FakeDigest.sha256 true)
    FakeDigest.sha256Streaming
  exact ⟨FakeDigest.sha256Streaming, hmac (.replicate 65 7) [[1, 2], [], [3]],
    hlong (.replicate 65 7) [1, 2, 3] (by decide)⟩

end Hmac

end ConstArray
