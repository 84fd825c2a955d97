import ConstArray.Crypto.Fake
import ConstArray.Foundation.Digits
import ConstArray.View.Owned

/-! # Lamport signatures

A key holds two digest outputs for each bit of a message hash, a signature reveals one of
the two. Keys are flat arrays, viewed as outputs and as pairs of them.
-/

namespace ConstArray.Lamport

open Foundation

variable {w : Nat} {σ : Type}

section Sizes

variable (D : Digest w σ)

/-- `Bits<D>`. -/
abbrev Bits : ConcreteSize := .prod D.outputSize (.len 8)

/-- `KeySize<D>`. -/
abbrev KeySize : ConcreteSize := .prod (.prod (Bits D) (.len 2)) D.outputSize

/-- `SignatureSize<D>`. -/
abbrev SignatureSize : ConcreteSize := .prod (Bits D) D.outputSize

/-- `SigningKey<D>`. -/
abbrev SigningKey : Type := Array UInt8 (KeySize D)

/-- `VerifyingKey<D>`. -/
abbrev VerifyingKey : Type := Array UInt8 (KeySize D)

/-- `Signature<D>`. -/
abbrev Signature : Type := Array UInt8 (SignatureSize D)

end Sizes

variable {D : Digest w σ} {N : ConcreteSize}

/-- `byte >> j & 1 == 1`. -/
def testBit (byte : UInt8) (j : Nat) : Bool := byte >>> .ofNat j &&& 1 == 1

variable (D) in
/-- `message_bits`. -/
def messageBits (msg : List UInt8) : Exec σ (Array Bool (Bits D)) := do
  let bytes ← (← D.digest msg).mapRef Array.noDrop fun byte =>
    Array.fromFn Array.noDrop (.len 8) fun j => pure (testBit byte j)
  Exec.ofOption bytes.fromChunks

/-- `hash_chunks`. -/
def hashChunks (xs : Array UInt8 (.prod N D.outputSize)) : Exec σ (Array D.Output N) := do
  (← Exec.ofOption xs.intoChunks).mapRef Array.noDrop fun x => D.digest x.flat

/-- `select`. -/
def select (key : SigningKey D) (bits : Array Bool (Bits D)) :
    Exec σ (Array D.Output (Bits D)) := do
  let outputs ← Exec.ofOption key.intoChunks
  let pairs ← Exec.ofOption outputs.intoChunks
  pairs.zipWith Array.noDrop (fun pair bit => do
    (← pair.index bit.toNat).clone Array.noDrop pure) bits

/-- `signing_key`. -/
def signingKey (seed : D.Output) : Exec σ (SigningKey D) := do
  let outputs ← Array.fromFn Array.noDrop (.prod (Bits D) (.len 2)) fun i => do
    let d ← D.chain (← D.default) seed.flat
    let d ← D.chain d (toBeBytes i.toUInt64)
    D.finalize d
  Exec.ofOption outputs.fromChunks

/-- `verifying_key`. -/
def verifyingKey (sk : SigningKey D) : Exec σ (VerifyingKey D) := do
  Exec.ofOption (← hashChunks sk).fromChunks

/-- `sign`. -/
def sign (sk : SigningKey D) (msg : List UInt8) : Exec σ (Signature D) := do
  Exec.ofOption (← select sk (← messageBits D msg)).fromChunks

/-- `verify`. -/
def verify (vk : VerifyingKey D) (msg : List UInt8) (sig : Signature D) :
    Exec σ (Except Error Unit) := do
  let revealed ← Exec.ofOption (← hashChunks sig).fromChunks
  let expected ← Exec.ofOption (← select vk (← messageBits D msg)).fromChunks
  if ← ctEq revealed expected then return .ok () else return .error ⟨⟩

/-! ## Bits -/

/-- A byte is its eight bits. -/
theorem eq_of_testBit_eq {a b : UInt8} (h : ∀ j < 8, testBit a j = testBit b j) : a = b := by
  have htest (x : UInt8) {j : Nat} (hj : j < 8) : testBit x j = decide (digit 2 x.toNat j = 1) := by
    have hshift : (UInt8.ofNat j).toNat % 8 = j := by
      rw [UInt8.toNat_ofNat']
      omega
    rw [testBit, Bool.eq_iff_iff, beq_iff_eq, decide_eq_true_iff, ← UInt8.toNat_inj,
      UInt8.toNat_and, UInt8.toNat_shiftRight, hshift, UInt8.toNat_one, Nat.and_one_is_mod,
      Nat.shiftRight_eq_div_pow, digit]
  apply UInt8.toNat_inj.mp
  apply eq_of_digit_eq (b := 2) (k := 8) a.toNat_lt b.toNat_lt
  intro j hj
  have hbit := h j hj
  rw [htest a hj, htest b hj, decide_eq_decide] at hbit
  have hlt (n : Nat) : digit 2 n j < 2 := Nat.mod_lt _ (by omega)
  have ha := hlt a.toNat
  have hb := hlt b.toNat
  omega

section Streaming

variable (h : D.Streaming)

/-- Bit `i` of the hash of `msg`. -/
def bitAt (msg : List UInt8) (i : Nat) : Bool :=
  testBit ((h.hash msg).flat[i / 8]?.getD 0) (i % 8)

/-- The hash is its bits. -/
theorem hash_eq_of_bitAt_eq {msg msg' : List UInt8}
    (hbits : ∀ i < (Bits D).count, bitAt h msg i = bitAt h msg' i) : h.hash msg = h.hash msg' := by
  apply Array.ext_getElem?
  intro k hk
  have hbyte : (h.hash msg).flat[k]?.getD 0 = (h.hash msg').flat[k]?.getD 0 := by
    apply eq_of_testBit_eq
    intro j hj
    have hbit := hbits (8 * k + j) (by rw [Size.count_prod, Size.count_len]; omega)
    rwa [bitAt, bitAt, Nat.mul_add_div (by omega), Nat.mul_add_mod, Nat.div_eq_of_lt hj,
      Nat.mod_eq_of_lt hj] at hbit
  rw [List.getElem?_eq_getElem (by simpa using hk), List.getElem?_eq_getElem (by simpa using hk)]
    at hbyte ⊢
  exact congrArg some hbyte

theorem messageBits_eq (msg : List UInt8) :
    messageBits D msg = pure (.tabulate (Bits D) (bitAt h msg)) := by
  have hbits (byte : UInt8) : (Array.fromFn Array.noDrop (.len 8) fun j => pure (testBit byte j)) =
      (pure (.tabulate (.len 8) (testBit byte)) : Exec σ _) :=
    Array.fromFn_pure Array.noDrop fun _ _ => rfl
  rw [messageBits, h.digest_eq, pure_bind, Array.mapRef_pure Array.noDrop _ fun x _ => hbits x,
    pure_bind, Array.fromChunks_eq_join, Exec.ofOption_some]
  refine congrArg pure (Array.ext_getElem? fun i hi => ?_)
  rw [Size.count_prod, Size.count_len] at hi
  rw [Array.flat_join, Array.getElem?_flatMap_flat, Size.count_len, Array.flat_mapValues,
    List.getElem?_map, Array.getElem?_tabulate _ (by simpa using hi), bitAt,
    List.getElem?_eq_getElem (by rw [Array.length_flat]; omega)]
  exact Array.getElem?_tabulate _ (Nat.mod_lt i (by decide))

/-! ## Keys and signatures -/

/-- The digest outputs of a key: two for each bit. -/
def entry (key : SigningKey D) (i : Nat) (bit : Bool) : Option D.Output :=
  key.chunks.flat[2 * i + bit.toNat]?

/-- The entries that the bits of a message hash select. -/
def selected (key : SigningKey D) (msg : List UInt8) : Array D.Output (Bits D) :=
  .tabulate (Bits D) fun i => (entry key i (bitAt h msg i)).getD (.tabulate D.outputSize fun _ => 0)

theorem getElem?_selected (key : SigningKey D) (msg : List UInt8) {i : Nat}
    (hi : i < (Bits D).count) :
    (selected h key msg).flat[i]? = entry key i (bitAt h msg i) := by
  have hbit := Bool.toNat_le (bitAt h msg i)
  rw [selected, Array.getElem?_tabulate _ hi, entry,
    List.getElem?_eq_getElem (by rw [Array.length_flat, Size.count_prod, Size.count_len]; omega)]
  rfl

theorem select_eq (key : SigningKey D) (msg : List UInt8) :
    select key (.tabulate (Bits D) (bitAt h msg)) = pure (selected h key msg) := by
  have hindex (pair : Array D.Output (.len 2)) (bit : Bool) : (do
      (← pair.index bit.toNat).clone Array.noDrop pure) =
      (pure (pair.flat[bit.toNat]?.getD (.tabulate D.outputSize fun _ => 0)) : Exec σ _) := by
    have hbit := Bool.toNat_le bit
    rw [Array.index_eq, List.getElem?_eq_getElem (by rw [Array.length_flat, Size.count_len]; omega),
      Exec.unwrap_some, pure_bind, Array.clone_pure]
    rfl
  rw [select, Array.intoChunks_eq_chunks, Exec.ofOption_some, pure_bind, Array.intoChunks_eq_chunks,
    Exec.ofOption_some, pure_bind, Array.zipWith_pure Array.noDrop hindex]
  refine congrArg pure (Array.ext_getElem? fun i hi => ?_)
  have hbit := Bool.toNat_le (bitAt h msg i)
  rw [getElem?_selected h key msg hi, Array.flat_zipValues, List.getElem?_zipWith,
    Array.getElem?_tabulate _ hi, entry, ← Array.flatMap_chunks key.chunks,
    Array.getElem?_flatMap_flat, Size.count_len, Nat.mul_add_div (by omega), Nat.mul_add_mod,
    Nat.div_eq_of_lt (by omega), Nat.mod_eq_of_lt (by omega), Nat.add_zero,
    List.getElem?_eq_getElem (by simpa using hi)]
  dsimp only [Option.bind_eq_bind, Option.bind_some]
  rw [List.getElem?_eq_getElem (by rw [Array.length_flat, Size.count_len]; omega)]
  rfl

theorem hashChunks_eq (xs : Array UInt8 (.prod N D.outputSize)) :
    hashChunks xs = pure (xs.chunks.mapValues fun x => h.hash x.flat) := by
  rw [hashChunks, Array.intoChunks_eq_chunks, Exec.ofOption_some, pure_bind]
  exact Array.mapRef_pure Array.noDrop _ fun x _ => h.digest_eq x.flat

/-- The verifying key of a signing key. -/
def publicKey (sk : SigningKey D) : VerifyingKey D :=
  (sk.chunks.mapValues fun x => h.hash x.flat).join

theorem verifyingKey_eq (sk : SigningKey D) : verifyingKey sk = pure (publicKey h sk) := by
  rw [verifyingKey, hashChunks_eq h, pure_bind, Array.fromChunks_eq_join, Exec.ofOption_some,
    publicKey]

theorem entry_publicKey (sk : SigningKey D) (i : Nat) (bit : Bool) :
    entry (publicKey h sk) i bit = (entry sk i bit).map fun x => h.hash x.flat := by
  rw [entry, publicKey, Array.chunks_join, Array.flat_mapValues, List.getElem?_map, entry]

theorem sign_eq (sk : SigningKey D) (msg : List UInt8) :
    sign sk msg = pure (selected h sk msg).join := by
  rw [sign, messageBits_eq h, pure_bind, select_eq, pure_bind, Array.fromChunks_eq_join,
    Exec.ofOption_some]

/-- Each revealed value hashes to the selected entry of the key. -/
def Accepts (vk : VerifyingKey D) (msg : List UInt8) (sig : Signature D) : Prop :=
  ∀ i < (Bits D).count, (sig.chunks.flat[i]?).map (fun x => h.hash x.flat) =
    entry vk i (bitAt h msg i)

theorem verify_eq (vk : VerifyingKey D) (msg : List UInt8) (sig : Signature D) :
    ∃ r, verify vk msg sig = pure r ∧ (r = .ok () ↔ Accepts h vk msg sig) := by
  have haccepts : (sig.chunks.mapValues fun x => h.hash x.flat).join = (selected h vk msg).join ↔
      Accepts h vk msg sig := by
    rw [Accepts]
    constructor
    · intro heq i hi
      have hchunks := congrArg (fun a => a.chunks.flat[i]?) heq
      rwa [Array.chunks_join, Array.chunks_join, getElem?_selected h vk msg hi,
        Array.flat_mapValues, List.getElem?_map] at hchunks
    · intro hall
      refine congrArg Array.join (Array.ext_getElem? fun i hi => ?_)
      rw [getElem?_selected h vk msg hi, Array.flat_mapValues, List.getElem?_map, hall i hi]
  rw [verify, hashChunks_eq h, pure_bind, Array.fromChunks_eq_join, Exec.ofOption_some, pure_bind,
    messageBits_eq h, pure_bind, select_eq, pure_bind, Array.fromChunks_eq_join,
    Exec.ofOption_some, pure_bind, ctEq_eq, pure_bind]
  by_cases heq : Accepts h vk msg sig
  · exact ⟨.ok (), by rw [decide_eq_true (haccepts.mpr heq)]; rfl, fun _ => heq, fun _ => rfl⟩
  · exact ⟨.error ⟨⟩, by rw [decide_eq_false (mt haccepts.mp heq)]; rfl, nofun,
      fun h => absurd h heq⟩

/-- What is signed is accepted. -/
theorem accepts_signature (sk : SigningKey D) (msg : List UInt8) :
    Accepts h (publicKey h sk) msg (selected h sk msg).join := by
  intro i hi
  rw [Array.chunks_join, getElem?_selected h sk msg hi, entry_publicKey]

/-- One signature for two messages needs entries that are equal. -/
theorem Accepts.hash_eq {vk : VerifyingKey D} {msg msg' : List UInt8} {sig : Signature D}
    (hvk : ∀ i < (Bits D).count, entry vk i false ≠ entry vk i true)
    (hmsg : Accepts h vk msg sig) (hmsg' : Accepts h vk msg' sig) :
    h.hash msg = h.hash msg' := by
  apply hash_eq_of_bitAt_eq
  intro i hi
  have hentry := (hmsg i hi).symm.trans (hmsg' i hi)
  have hne := hvk i hi
  cases hbit : bitAt h msg i with
  | false =>
      cases hbit' : bitAt h msg' i with
      | false => rfl
      | true =>
          rw [hbit, hbit'] at hentry
          exact absurd hentry hne
  | true =>
      cases hbit' : bitAt h msg' i with
      | false =>
          rw [hbit, hbit'] at hentry
          exact absurd hentry.symm hne
      | true => rfl

theorem signingKey_eq (seed : D.Output) :
    signingKey seed = pure (Array.join (.tabulate (.prod (Bits D) (.len 2)) fun i =>
      h.hash (seed.flat ++ toBeBytes i.toUInt64))) := by
  have houtput : ∀ i < (Size.prod (Bits D) (.len 2)).count, (do
      let d ← D.chain (← D.default) seed.flat
      let d ← D.chain d (toBeBytes i.toUInt64)
      D.finalize d) = (pure (h.hash (seed.flat ++ toBeBytes i.toUInt64)) : Exec σ _) := by
    intro i _
    simp only [h.start_eq, h.chain_eq, h.finalize_eq, pure_bind, List.nil_append]
  rw [signingKey, Array.fromFn_pure Array.noDrop houtput, pure_bind, Array.fromChunks_eq_join,
    Exec.ofOption_some]

/-- For every digest that streams, nothing panics: each entry of a key is the hash of the seed
and its number, a signature reveals exactly the entries that the bits of the message
hash select, and it is accepted for exactly the messages whose bits select entries with the
same hashes, among them its own. -/
theorem signs_and_verifies :
    (∀ seed : D.Output, ∃ sk, signingKey seed = pure sk ∧
      ∀ i < (Bits D).count, ∀ bit, entry sk i bit =
        some (h.hash (seed.flat ++ toBeBytes (2 * i + bit.toNat).toUInt64))) ∧
    ∀ (sk : SigningKey D) (msg : List UInt8), ∃ vk sig,
      verifyingKey sk = pure vk ∧ sign sk msg = pure sig ∧
      (∀ i < (Bits D).count, sig.chunks.flat[i]? = entry sk i (bitAt h msg i)) ∧
      verify vk msg sig = pure (.ok ()) ∧
      ∀ msg', ∃ r, verify vk msg' sig = pure r ∧
        (r = .ok () ↔ ∀ i < (Bits D).count, entry vk i (bitAt h msg i) =
          entry vk i (bitAt h msg' i)) := by
  constructor
  · intro seed
    refine ⟨_, signingKey_eq h seed, ?_⟩
    intro i hi bit
    have hbit := Bool.toNat_le bit
    rw [entry, Array.chunks_join, Array.getElem?_tabulate]
    rw [Size.count_prod, Size.count_len]
    omega
  · intro sk msg
    have hsig : ∀ i < (Bits D).count, (selected h sk msg).join.chunks.flat[i]? =
        entry sk i (bitAt h msg i) := by
      intro i hi
      rw [Array.chunks_join, getElem?_selected h sk msg hi]
    refine ⟨_, _, verifyingKey_eq h sk, sign_eq h sk msg, hsig, ?_, ?_⟩
    · obtain ⟨r, hverify, hr⟩ := verify_eq h (publicKey h sk) msg (selected h sk msg).join
      rw [hverify, hr.mpr (accepts_signature h sk msg)]
    · intro msg'
      obtain ⟨r, hverify, hr⟩ := verify_eq h (publicKey h sk) msg' (selected h sk msg).join
      refine ⟨r, hverify, hr.trans (forall₂_congr fun i hi => ?_)⟩
      rw [hsig i hi, entry_publicKey, entry_publicKey]

/-- A message signed with `FakeSha256`. -/
theorem signs_with_fake_digest :
    ∃ (vk : VerifyingKey (FakeDigest.sha256 (σ := Unit) true)) (sig : Signature _),
      verifyingKey (.tabulate _ fun i => .ofNat i) = pure vk ∧
      sign (.tabulate _ fun i => .ofNat i) [1, 2, 3] = pure sig ∧
      verify vk [1, 2, 3] sig = pure (.ok ()) := by
  obtain ⟨-, hsign⟩ := @signs_and_verifies 64 Unit (FakeDigest.sha256 true)
    FakeDigest.sha256Streaming
  obtain ⟨vk, sig, hvk, hsig, -, hverify, -⟩ := hsign (.tabulate _ fun i => .ofNat i) [1, 2, 3]
  exact ⟨vk, sig, hvk, hsig, hverify⟩

/-- What a forger has to find. A signature that is accepted for two messages with different
hashes needs a key with two equal entries for one bit, and one that is accepted for a message
with another hash than the signed one contains a preimage of an entry of the
verifying key whose secret was not revealed. -/
theorem forgery_needs_preimage (s : σ) :
    (∀ (vk : VerifyingKey D) (msg msg' : List UInt8) (sig : Signature D) (t t' : σ),
      (∀ i < (Bits D).count, entry vk i false ≠ entry vk i true) →
      verify vk msg sig s = .ok (.ok ()) t → verify vk msg' sig s = .ok (.ok ()) t' →
      h.hash msg = h.hash msg') ∧
    ∀ (sk : SigningKey D) (vk : VerifyingKey D) (msg msg' : List UInt8) (sig : Signature D)
      (t t' : σ), verifyingKey sk s = .ok vk t → h.hash msg ≠ h.hash msg' →
      verify vk msg' sig s = .ok (.ok ()) t' →
      ∃ i < (Bits D).count, bitAt h msg i ≠ bitAt h msg' i ∧ ∃ x y,
        sig.chunks.flat[i]? = some x ∧ entry sk i (bitAt h msg' i) = some y ∧
        h.hash x.flat = h.hash y.flat := by
  have haccepts {vk : VerifyingKey D} {msg : List UInt8} {sig : Signature D} {t : σ}
      (hok : verify vk msg sig s = .ok (.ok ()) t) : Accepts h vk msg sig := by
    obtain ⟨r, hverify, hr⟩ := verify_eq h vk msg sig
    rw [hverify] at hok
    cases hok
    exact hr.mp rfl
  constructor
  · intro vk msg msg' sig t t' hvk hmsg hmsg'
    exact (haccepts hmsg).hash_eq h hvk (haccepts hmsg')
  · intro sk vk msg msg' sig t t' hkey hne hmsg'
    rw [verifyingKey_eq h] at hkey
    cases hkey
    have hbits : ∃ i < (Bits D).count, bitAt h msg i ≠ bitAt h msg' i := by
      by_contra hall
      push Not at hall
      exact hne (hash_eq_of_bitAt_eq h hall)
    obtain ⟨i, hi, hbit⟩ := hbits
    have hentry := haccepts hmsg' i hi
    rw [entry_publicKey] at hentry
    have hbit' := Bool.toNat_le (bitAt h msg' i)
    have hx : i < sig.chunks.flat.length := by simpa using hi
    have hy : 2 * i + (bitAt h msg' i).toNat < sk.chunks.flat.length := by
      rw [Array.length_flat, Size.count_prod, Size.count_len]
      omega
    refine ⟨i, hi, hbit, _, _, List.getElem?_eq_getElem hx, List.getElem?_eq_getElem hy, ?_⟩
    rw [entry, List.getElem?_eq_getElem hx, List.getElem?_eq_getElem hy, Option.map_some,
      Option.map_some] at hentry
    exact Option.some.inj hentry

/-- A key of which all entries are `x`, and what it signs with. -/
def constantKey (x : D.Output) : SigningKey D := (Array.tabulate _ fun _ => x).join

def constantSignature (x : D.Output) : Signature D := (Array.tabulate _ fun _ => x).join

theorem verify_constantSignature (x : D.Output) (msg : List UInt8) :
    verify (publicKey h (constantKey x)) msg (constantSignature x) = pure (.ok ()) := by
  have haccepts : Accepts h (publicKey h (constantKey x)) msg (constantSignature x) := by
    intro i hi
    have hbit := Bool.toNat_le (bitAt h msg i)
    have hpair : 2 * i + (bitAt h msg i).toNat < (Size.prod (Bits D) (.len 2)).count := by
      rw [Size.count_prod, Size.count_len]
      omega
    rw [entry_publicKey, entry, constantKey, constantSignature, Array.chunks_join,
      Array.chunks_join, Array.getElem?_tabulate _ hi, Array.getElem?_tabulate _ hpair]
  obtain ⟨r, hverify, hr⟩ := verify_eq h (publicKey h (constantKey x)) msg (constantSignature x)
  rw [hverify, hr.mpr haccepts]

/-- The constant key has one signature for all messages: it contains the secrets that were not
revealed. -/
theorem forges_constant_key :
    ∃ h : (FakeDigest.sha256 (σ := Unit) true).Streaming,
      ∃ i < (Bits (FakeDigest.sha256 (σ := Unit) true)).count,
        bitAt h [1] i ≠ bitAt h [2] i ∧ ∃ x y,
          (constantSignature (D := FakeDigest.sha256 (σ := Unit) true)
            (.tabulate _ fun _ => 7)).chunks.flat[i]? = some x ∧
          entry (constantKey (D := FakeDigest.sha256 (σ := Unit) true) (.tabulate _ fun _ => 7)) i
            (bitAt h [2] i) = some y ∧
          h.hash x.flat = h.hash y.flat := by
  obtain ⟨-, hforge⟩ := @forgery_needs_preimage 64 Unit (FakeDigest.sha256 true)
    FakeDigest.sha256Streaming ()
  refine ⟨FakeDigest.sha256Streaming, hforge _
    (publicKey FakeDigest.sha256Streaming (constantKey (.tabulate _ fun _ => 7))) [1] [2] _ () ()
    ?_ (by decide) ?_⟩
  · rw [verifyingKey_eq FakeDigest.sha256Streaming]
    rfl
  · rw [verify_constantSignature FakeDigest.sha256Streaming]
    rfl

end Streaming

end ConstArray.Lamport
