import ConstArray.Crypto.Fake
import ConstArray.Crypto.Hmac
import ConstArray.View.Owned

/-! # HKDF

`Hkdf<D>` expands a pseudorandom key to any length up to 255 digest outputs. Each
block is the HMAC of the block before it, the info and the number of the block.
A key schedule declares the sizes of its keys, derives them in one call and splits
them.
-/

namespace ConstArray

open Foundation

variable {w : Nat} {overflowChecks : Bool} {σ : Type}

/-- `Hkdf<D>`. -/
structure Hkdf (D : Digest w σ) where
  prk : D.Output

/-- `InvalidLength`. -/
structure InvalidLength where
  deriving DecidableEq, Repr

/-- `chunk.copy_from_slice(&block[..chunk.len()])`: the range must be in bounds. -/
def Array.copyInto {S : ConcreteSize} (block : Array UInt8 S) {m : Nat} :
    Exec σ (List.Vector UInt8 m) :=
  if h : m ≤ S.count then pure ⟨block.flat.take m, by simp [h]⟩ else Exec.panic

namespace Hkdf

variable {D : Digest w σ}

variable (D) in
/-- `Hkdf::extract`. -/
def extract (salt : Option (List UInt8)) (ikm : List UInt8) : Exec σ (Hkdf D) := do
  let zeros ← Array.default Array.noDrop D.outputSize (pure 0)
  let mac ← Hmac.newFromSlice D (salt.getD zeros.flat)
  let mac ← (Hmac.asMac D).update mac ikm
  return { prk := ← (Hmac.asMac D).finalize mac }

/-- `Hkdf::from_prk`. -/
def fromPrk (prk : D.Output) : Hkdf D := { prk }

/-- The body of the loop of `Hkdf::expand_into`, with the index and `prev`. -/
def expandStep (overflowChecks : Bool) (self : Hkdf D) (info : List UInt8) :
    Nat × Option D.Output → {m : Nat} → List.Vector UInt8 m →
      Exec σ (List.Vector UInt8 m × (Nat × Option D.Output))
  | (i, prev), _, _ => do
      let mac ← (Hmac.asMac D).new self.prk
      let mac ← prev.elim (pure mac) fun prev => (Hmac.asMac D).update mac prev.flat
      let mac ← (Hmac.asMac D).update mac info
      let number ← addUsize 8 overflowChecks (i % 2 ^ 8) 1
      let mac ← (Hmac.asMac D).update mac [.ofNat number]
      let block ← (Hmac.asMac D).finalize mac
      return (← block.copyInto, (i + 1, some block))

/-- `Hkdf::expand_into`. -/
def expandInto (overflowChecks : Bool) (self : Hkdf D) (info : List UInt8) {n : Nat}
    (okm : List.Vector UInt8 n) :
    Exec σ (List.Vector UInt8 n × Except InvalidLength Unit) := do
  if n > (← mulUsize w overflowChecks 255 D.outputSize.count) then return (okm, .error ⟨⟩)
  let (okm, _) ← forChunksMut D.outputSize.count (expandStep overflowChecks self info) (0, none) okm
  return (okm, .ok ())

/-- `Hkdf::expand`. -/
def expand (overflowChecks : Bool) (self : Hkdf D) (L : ConcreteSize) (info : List UInt8) :
    Exec σ (Except InvalidLength (Array UInt8 L)) := do
  let okm ← Array.default Array.noDrop L (pure 0)
  match ← self.expandInto overflowChecks info okm.toVector with
  | (okm, .ok ()) => return .ok (Array.ofVector okm)
  | (_, .error e) => return .error e

/-! ## Key schedules -/

abbrev AesKey : ConcreteSize := .len 16

abbrev Iv : ConcreteSize := .len 12

abbrev Direction : ConcreteSize := .sum AesKey Iv

abbrev SessionKeys : ConcreteSize := .sum Direction Direction

abbrev Epochs : ConcreteSize := .len 4

abbrev EpochKeys : ConcreteSize := .prod Epochs SessionKeys

/-- `DirectionKeys`. -/
structure DirectionKeys where
  key : Array UInt8 AesKey
  iv : Array UInt8 Iv

/-- `Result::expect`. -/
def expect {E α : Type} (r : Except E α) : Exec σ α := Exec.unwrap r.toOption

@[simp] theorem expect_ok {E α : Type} (a : α) :
    (expect (.ok a : Except E α) : Exec σ α) = pure a := rfl

@[simp] theorem expect_error {E α : Type} (e : E) :
    (expect (.error e : Except E α) : Exec σ α) = Exec.panic := rfl

/-- The closure of `session_keys`. -/
def split (dir : Array UInt8 Direction) : Exec σ DirectionKeys := do
  let (key, iv) ← Exec.ofOption dir.parts
  return { key, iv }

/-- `b"example salt"`. -/
def exampleSalt : List UInt8 := "example salt".toUTF8.toList

variable (D) in
/-- `session_keys`. -/
def sessionKeys (overflowChecks : Bool) (sharedSecret : List UInt8) :
    Exec σ (DirectionKeys × DirectionKeys) := do
  let hkdf ← extract D (some exampleSalt) sharedSecret
  let keys ← expect (← hkdf.expand overflowChecks SessionKeys "session keys".toUTF8.toList)
  let (client, server) ← Exec.ofOption keys.parts
  return (← split client, ← split server)

variable (D) in
/-- `epoch_keys`. -/
def epochKeys (overflowChecks : Bool) (sharedSecret : List UInt8) :
    Exec σ (Array (Array UInt8 SessionKeys) Epochs) := do
  let hkdf ← extract D (some exampleSalt) sharedSecret
  let keys ← expect (← hkdf.expand overflowChecks EpochKeys "epoch keys".toUTF8.toList)
  Exec.ofOption keys.intoChunks

/-- `cipher_for`. -/
def cipherFor (overflowChecks : Bool) (C : StreamCipher σ) (hkdf : Hkdf D)
    (nonce : Array UInt8 C.nonceSize) : Exec σ C.State := do
  let key ← expect (← hkdf.expand overflowChecks C.keySize "cipher key".toUTF8.toList)
  C.new key nonce

/-! ## The output keying material -/

section Expand

variable (h : D.Streaming) (prk : D.Output) (info : List UInt8)

/-- `T(i + 1)`: `HMAC(prk, T(i) ‖ info ‖ i + 1)`, where `T(0)` is empty. -/
def block : Nat → D.Output
  | 0 => Hmac.value h prk.flat (info ++ [1])
  | i + 1 => Hmac.value h prk.flat ((block i).flat ++ (info ++ [.ofNat (i + 2)]))

/-- `T(1) ‖ … ‖ T(255)`. -/
def stream : List UInt8 := ((List.range 255).map (block h prk info)).flatMap Array.flat

/-- The index and `prev` of round `i`. -/
def round : Nat → Nat × Option D.Output
  | 0 => (0, none)
  | i + 1 => (i + 1, some (block h prk info i))

@[simp] theorem length_stream : (stream h prk info).length = 255 * D.outputSize.count := by
  rw [stream]
  generalize 255 = blocks
  simp [List.length_flatMap, Function.comp_def]

/-- A chunk of the stream is the start of a block. -/
theorem take_drop_stream {i m : Nat} (hi : i < 255) (hm : m ≤ D.outputSize.count) :
    ((stream h prk info).drop (D.outputSize.count * i)).take m =
      (block h prk info i).flat.take m := by
  apply List.ext_getElem?
  intro j
  by_cases hj : j < m
  · have hpos : 0 < D.outputSize.count := by omega
    rw [List.getElem?_take_of_lt hj, List.getElem?_take_of_lt hj, List.getElem?_drop, stream,
      Array.getElem?_flatMap_flat, Nat.mul_add_div hpos, Nat.mul_add_mod,
      Nat.div_eq_of_lt (by omega), Nat.mod_eq_of_lt (by omega), Nat.add_zero, List.getElem?_map,
      List.getElem?_range hi]
    rfl
  · rw [List.getElem?_take_eq_none (by omega), List.getElem?_take_eq_none (by omega)]

/-- Round `i` writes the start of block `i`. -/
theorem expandStep_eq {i m : Nat} (hi : i < 255) (hm : m ≤ D.outputSize.count)
    (chunk : List.Vector UInt8 m) :
    (fromPrk prk).expandStep overflowChecks info (round h prk info i) chunk =
      pure (⟨(block h prk info i).flat.take m,
        List.length_take_of_le (hm.trans_eq (Array.length_flat _).symm)⟩,
        round h prk info (i + 1)) := by
  have hnumber : (addUsize 8 overflowChecks (i % 2 ^ 8) 1 : Exec σ Nat) = pure (i + 1) := by
    rw [Nat.mod_eq_of_lt (by omega), addUsize_of_lt (by omega)]
  have hnew : (Hmac.asMac D).new (fromPrk prk).prk = pure ((Hmac.absorbing h prk.flat).state []) :=
    (Hmac.absorbing h prk.flat).start_eq
  have hupdate := (Hmac.absorbing h prk.flat).update_eq
  have hfinalize := Hmac.finalize_eq h prk.flat
  cases i with
  | zero =>
      rw [round, expandStep, hnew, pure_bind, Option.elim_none, pure_bind, hupdate, pure_bind,
        hnumber, pure_bind, hupdate, pure_bind, hfinalize, pure_bind, Array.copyInto, dif_pos hm]
      rfl
  | succ i =>
      rw [round, expandStep, hnew, pure_bind, Option.elim_some, hupdate, pure_bind, hupdate,
        pure_bind, hnumber, pure_bind, hupdate, pure_bind, hfinalize, pure_bind, Array.copyInto,
        dif_pos hm, List.nil_append, List.append_assoc]
      rfl

/-- Every slice that is not too long is filled from the stream. -/
theorem expandInto_eq (hw : 255 * D.outputSize.count < 2 ^ w) (hpos : 0 < D.outputSize.count)
    {n : Nat} (hn : n ≤ 255 * D.outputSize.count) (okm : List.Vector UInt8 n) :
    (fromPrk prk).expandInto overflowChecks info okm =
      pure (⟨(stream h prk info).take n,
        List.length_take_of_le (hn.trans_eq (length_stream h prk info).symm)⟩, .ok ()) := by
  have hround : ∀ i m, 0 < m → m ≤ D.outputSize.count →
      ∀ (hm : m ≤ (stream h prk info).length - D.outputSize.count * i)
        (chunk : List.Vector UInt8 m),
      (fromPrk prk).expandStep overflowChecks info (round h prk info i) chunk =
        pure (sliceAt (stream h prk info) (D.outputSize.count * i) m hm,
          round h prk info (i + 1)) := by
    intro i m hmpos hle hm chunk
    rw [length_stream] at hm
    have hi : i < 255 := by
      by_contra hge
      have := Nat.mul_le_mul_left D.outputSize.count (Nat.le_of_not_lt hge)
      omega
    rw [expandStep_eq h prk info hi hle]
    refine congrArg (fun v => pure (v, _)) (List.Vector.toList_injective ?_)
    rw [toList_sliceAt, take_drop_stream h prk info hi hle]
    rfl
  obtain ⟨j, hloop⟩ := chunkLoop_eq hpos (round h prk info) hround (i := 0) (by simpa using hn) okm
  rw [expandInto, mulUsize_of_lt hw, pure_bind, if_neg (Nat.not_lt.mpr hn), forChunksMut,
    dif_pos hpos]
  rw [round] at hloop
  rw [hloop]
  rfl

theorem expandInto_of_gt (hw : 255 * D.outputSize.count < 2 ^ w) {n : Nat}
    (hn : 255 * D.outputSize.count < n) (okm : List.Vector UInt8 n) :
    (fromPrk prk).expandInto overflowChecks info okm = pure (okm, .error ⟨⟩) := by
  rw [expandInto, mulUsize_of_lt hw, pure_bind, if_pos hn]

/-- `L` bytes of output keying material. -/
def okm (L : ConcreteSize) (hL : L.count ≤ 255 * D.outputSize.count) : Array UInt8 L :=
  .ofList L ((stream h prk info).take L.count) (by simp [hL])

@[simp] theorem flat_okm {L : ConcreteSize} (hL : L.count ≤ 255 * D.outputSize.count) :
    (okm h prk info L hL).flat = (stream h prk info).take L.count :=
  Array.flat_ofList _

theorem expand_eq (hw : 255 * D.outputSize.count < 2 ^ w) (hpos : 0 < D.outputSize.count)
    {L : ConcreteSize} (hL : L.count ≤ 255 * D.outputSize.count) :
    (fromPrk prk).expand overflowChecks L info = pure (.ok (okm h prk info L hL)) := by
  rw [expand, Array.default_pure Array.noDrop, pure_bind, expandInto_eq h prk info hw hpos hL,
    pure_bind]
  rfl

theorem expand_of_gt (hw : 255 * D.outputSize.count < 2 ^ w) {L : ConcreteSize}
    (hL : 255 * D.outputSize.count < L.count) :
    (fromPrk prk).expand overflowChecks L info = pure (.error ⟨⟩) := by
  rw [expand, Array.default_pure Array.noDrop, pure_bind, expandInto_of_gt prk info hw hL,
    pure_bind]

/-- Without a salt, HMAC has no key. -/
theorem extract_eq (salt : Option (List UInt8)) (ikm : List UInt8) :
    extract D salt ikm = pure (fromPrk (Hmac.value h (salt.getD []) ikm)) := by
  have hextract (key : List UInt8) : (do
      let mac ← Hmac.newFromSlice D key
      let mac ← (Hmac.asMac D).update mac ikm
      return ({ prk := ← (Hmac.asMac D).finalize mac } : Hkdf D)) =
      pure (fromPrk (Hmac.value h key ikm)) := by
    rw [(Hmac.absorbing h key).start_eq, pure_bind, (Hmac.absorbing h key).update_eq, pure_bind,
      Hmac.finalize_eq, pure_bind]
    rfl
  rw [extract, Array.default_pure Array.noDrop, pure_bind, hextract]
  cases salt with
  | some salt => rfl
  | none =>
      have hzeros : Hmac.keyBlock h (Array.tabulate D.outputSize fun _ => 0).flat =
          Hmac.keyBlock h [] := by
        have hfits : ([] : List UInt8).length + D.outputSize.count ≤ D.blockSize.count := by
          simpa using Hmac.outputSize_le_blockSize D
        rw [Array.flat_tabulate, List.map_const', List.length_range]
        exact Hmac.keyBlock_append_zeros h hfits
      exact congrArg (fun prk => pure (fromPrk prk)) (Hmac.value_congr h hzeros ikm)

/-- For every digest with a non-empty output, HKDF is that of RFC 5869: the extracted key is
the HMAC of the input under the salt, which is empty by default, and both forms of expansion
return the start of the same stream of blocks, for exactly the lengths up to 255 blocks. A
slice that is too long stays as it was. -/
theorem extracts_and_expands (hw : 255 * D.outputSize.count < 2 ^ w)
    (hpos : 0 < D.outputSize.count) :
    (∀ salt ikm, extract D salt ikm = pure (fromPrk (Hmac.value h (salt.getD []) ikm))) ∧
    ∀ prk info,
      (∀ L : ConcreteSize, L.count ≤ 255 * D.outputSize.count → ∃ a : Array UInt8 L,
        (fromPrk prk).expand overflowChecks L info = pure (.ok a) ∧
        a.flat = (stream h prk info).take L.count) ∧
      (∀ L : ConcreteSize, 255 * D.outputSize.count < L.count →
        (fromPrk prk).expand overflowChecks L info = pure (.error ⟨⟩)) ∧
      (∀ n ≤ 255 * D.outputSize.count, ∀ slice : List.Vector UInt8 n, ∃ a : List.Vector UInt8 n,
        (fromPrk prk).expandInto overflowChecks info slice = pure (a, .ok ()) ∧
        a.toList = (stream h prk info).take n) ∧
      ∀ n, 255 * D.outputSize.count < n → ∀ slice : List.Vector UInt8 n,
        (fromPrk prk).expandInto overflowChecks info slice = pure (slice, .error ⟨⟩) := by
  refine ⟨extract_eq h, fun prk info => ⟨?_, ?_, ?_, ?_⟩⟩
  · intro L hL
    exact ⟨_, expand_eq h prk info hw hpos hL, flat_okm h prk info hL⟩
  · intro L hL
    exact expand_of_gt prk info hw hL
  · intro n hn slice
    exact ⟨_, expandInto_eq h prk info hw hpos hn slice, rfl⟩
  · intro n hn slice
    exact expandInto_of_gt prk info hw hn slice

/-- The longest output of `FakeSha256`, and one byte more. -/
theorem expands_fake_sha256 :
    (∃ a : Array UInt8 (.len 8160),
      (fromPrk (.tabulate _ fun _ => 7) : Hkdf (FakeDigest.sha256 (σ := Unit) true)).expand true
        (.len 8160) [] = pure (.ok a)) ∧
    (fromPrk (.tabulate _ fun _ => 7) : Hkdf (FakeDigest.sha256 (σ := Unit) true)).expand true
      (.len 8161) [] = pure (.error ⟨⟩) := by
  have hexpand := (@extracts_and_expands 64 true Unit (FakeDigest.sha256 true)
    FakeDigest.sha256Streaming (by decide) (by decide)).2 (.tabulate _ fun _ => 7) []
  obtain ⟨a, ha, -⟩ := hexpand.1 (.len 8160) (by decide)
  exact ⟨⟨a, ha⟩, hexpand.2.1 (.len 8161) (by decide)⟩

/-! ## Keys -/

theorem split_eq (dir : Array UInt8 Direction) :
    (split dir : Exec σ DirectionKeys) = pure { key := dir.left, iv := dir.right } := by
  rw [split, Array.parts_eq_halves, Exec.ofOption_some, pure_bind]

theorem count_sessionKeys : SessionKeys.count = 56 := rfl

theorem count_epochKeys : EpochKeys.count = 224 := rfl

/-- The derived bytes of one direction, in order. -/
def DirectionKeys.flat (keys : DirectionKeys) : List UInt8 := keys.key.flat ++ keys.iv.flat

theorem DirectionKeys.flat_halves (dir : Array UInt8 Direction) :
    DirectionKeys.flat { key := dir.left, iv := dir.right } = dir.flat := by
  rw [DirectionKeys.flat, ← Array.flat_append, Array.append_left_right]

/-- A schedule goes on with the key material. -/
theorem schedule_eq {α : Type} (hw : 255 * D.outputSize.count < 2 ^ w)
    (hpos : 0 < D.outputSize.count) {L : ConcreteSize} (hL : L.count ≤ 255 * D.outputSize.count)
    (sharedSecret : List UInt8) (k : Array UInt8 L → Exec σ α) :
    (do
      let hkdf ← extract D (some exampleSalt) sharedSecret
      let keys ← expect (← hkdf.expand overflowChecks L info)
      k keys) = k (okm h (Hmac.value h exampleSalt sharedSecret) info L hL) := by
  rw [extract_eq h, pure_bind, Option.getD_some, expand_eq h _ _ hw hpos hL, pure_bind, expect_ok,
    pure_bind]

theorem sessionKeys_eq (hw : 255 * D.outputSize.count < 2 ^ w) (hpos : 0 < D.outputSize.count)
    (sharedSecret : List UInt8) :
    ∃ client server, sessionKeys D overflowChecks sharedSecret = pure (client, server) ∧
      client.flat ++ server.flat = (stream h (Hmac.value h exampleSalt sharedSecret)
        "session keys".toUTF8.toList).take 56 := by
  have hL : SessionKeys.count ≤ 255 * D.outputSize.count := by
    rw [count_sessionKeys]
    omega
  rw [sessionKeys, schedule_eq h _ hw hpos hL, Array.parts_eq_halves, Exec.ofOption_some,
    pure_bind]
  dsimp only
  rw [split_eq, pure_bind, split_eq, pure_bind]
  refine ⟨_, _, rfl, ?_⟩
  rw [DirectionKeys.flat_halves, DirectionKeys.flat_halves, ← Array.flat_append,
    Array.append_left_right, flat_okm, count_sessionKeys]

theorem epochKeys_eq (hw : 255 * D.outputSize.count < 2 ^ w) (hpos : 0 < D.outputSize.count)
    (sharedSecret : List UInt8) :
    ∃ keys, epochKeys D overflowChecks sharedSecret = pure keys ∧
      keys.flat.flatMap Array.flat =
        (stream h (Hmac.value h exampleSalt sharedSecret) "epoch keys".toUTF8.toList).take 224 := by
  have hL : EpochKeys.count ≤ 255 * D.outputSize.count := by
    rw [count_epochKeys]
    omega
  rw [epochKeys, schedule_eq h _ hw hpos hL, Array.intoChunks_eq_chunks, Exec.ofOption_some]
  refine ⟨_, rfl, ?_⟩
  rw [Array.flatMap_chunks, flat_okm, count_epochKeys]

include h in
/-- A digest without output makes every schedule fail. -/
theorem schedule_panic {α : Type} (hw : 255 * D.outputSize.count < 2 ^ w) {L : ConcreteSize}
    (hL : 255 * D.outputSize.count < L.count) (sharedSecret : List UInt8)
    (k : Array UInt8 L → Exec σ α) :
    (do
      let hkdf ← extract D (some exampleSalt) sharedSecret
      let keys ← expect (← hkdf.expand overflowChecks L info)
      k keys) = Exec.panic := by
  rw [extract_eq h, pure_bind, expand_of_gt _ _ hw hL, pure_bind, expect_error]
  rfl

/-- Both users of a derived cipher have the same keystream. -/
theorem cipherFor_eq (hw : 255 * D.outputSize.count < 2 ^ w) (hpos : 0 < D.outputSize.count)
    {C : StreamCipher σ} (hC : C.Keystream w) (hL : C.keySize.count ≤ 255 * D.outputSize.count)
    (hkdf : Hkdf D) (nonce : Array UInt8 C.nonceSize) :
    cipherFor overflowChecks C hkdf nonce =
      pure (hC.state (okm h hkdf.prk "cipher key".toUTF8.toList C.keySize hL) nonce 0) := by
  have hexpand : hkdf.expand overflowChecks C.keySize "cipher key".toUTF8.toList = _ :=
    expand_eq h hkdf.prk _ hw hpos hL
  rw [cipherFor, hexpand, pure_bind, expect_ok, pure_bind, hC.new_eq]

end Expand

/-- For every digest with a non-empty output, no key schedule panics, and its keys are all the
key material in order, without gaps or overlaps. Decrypting with a derived cipher undoes
encrypting. Only without output, both schedules panic. -/
theorem schedules_are_total (h : D.Streaming) (hw : 255 * D.outputSize.count < 2 ^ w) :
    (0 < D.outputSize.count → ∀ sharedSecret,
      (∃ client server, sessionKeys D overflowChecks sharedSecret = pure (client, server) ∧
        client.flat ++ server.flat =
          (stream h (Hmac.value h exampleSalt sharedSecret) "session keys".toUTF8.toList).take 56) ∧
      ∃ keys, epochKeys D overflowChecks sharedSecret = pure keys ∧
        keys.flat.flatMap Array.flat =
          (stream h (Hmac.value h exampleSalt sharedSecret) "epoch keys".toUTF8.toList).take 224) ∧
    (0 < D.outputSize.count → ∀ (C : StreamCipher σ) (_ : C.Keystream w),
      C.keySize.count ≤ 255 * D.outputSize.count → ∀ (hkdf : Hkdf D)
        (nonce : Array UInt8 C.nonceSize) (n : Nat), n < 2 ^ w → ∀ msg : List.Vector UInt8 n,
      (do
        let (msg, _) ← C.applyKeystream (← cipherFor overflowChecks C hkdf nonce) msg
        let (msg, _) ← C.applyKeystream (← cipherFor overflowChecks C hkdf nonce) msg
        return msg) = pure msg) ∧
    (D.outputSize.count = 0 → ∀ sharedSecret,
      sessionKeys D overflowChecks sharedSecret = Exec.panic ∧
      epochKeys D overflowChecks sharedSecret = Exec.panic) := by
  refine ⟨fun hpos sharedSecret => ⟨sessionKeys_eq h hw hpos sharedSecret,
    epochKeys_eq h hw hpos sharedSecret⟩, ?_, ?_⟩
  · intro hpos C hC hL hkdf nonce n hn msg
    have hfits : 0 + n < 2 ^ w := by omega
    simp only [cipherFor_eq h hw hpos hC hL, pure_bind, hC.applyKeystream_eq _ _ _ _ hfits,
      xorKeystream_xorKeystream]
  · intro hzero sharedSecret
    constructor
    · apply schedule_panic h _ hw
      rw [hzero]
      decide
    · apply schedule_panic h _ hw
      rw [hzero]
      decide

/-- All three schedules, with `FakeSha512` and `FakeChaCha20`. -/
theorem schedules_of_fake_sha512 :
    (∃ client server, sessionKeys (FakeDigest.sha512 (σ := Unit) true) true [1, 2, 3] =
      pure (client, server)) ∧
    (∃ keys, epochKeys (FakeDigest.sha512 (σ := Unit) true) true [1, 2, 3] = pure keys) ∧
    (do
      let hkdf : Hkdf (FakeDigest.sha512 (σ := Unit) true) := fromPrk (.tabulate _ fun _ => 7)
      let (msg, _) ← (FakeCipher.chaCha20 64 true).applyKeystream
        (← cipherFor true (FakeCipher.chaCha20 64 true) hkdf (.tabulate _ fun _ => 9))
        ⟨[1, 2, 3], rfl⟩
      let (msg, _) ← (FakeCipher.chaCha20 64 true).applyKeystream
        (← cipherFor true (FakeCipher.chaCha20 64 true) hkdf (.tabulate _ fun _ => 9)) msg
      return msg) = pure (⟨[1, 2, 3], rfl⟩ : List.Vector UInt8 3) := by
  obtain ⟨hkeys, hcipher, -⟩ := @schedules_are_total 64 true Unit (FakeDigest.sha512 true)
    FakeDigest.sha512Streaming (by decide)
  obtain ⟨⟨client, server, hsession, -⟩, keys, hepoch, -⟩ := hkeys (by decide) [1, 2, 3]
  refine ⟨⟨client, server, hsession⟩, ⟨keys, hepoch⟩, ?_⟩
  exact hcipher (by decide) _ (FakeCipher.keystream 64 true 32 12) (by decide)
    (fromPrk (.tabulate _ fun _ => 7)) _ 3 (by decide) ⟨[1, 2, 3], rfl⟩

end Hkdf

end ConstArray
