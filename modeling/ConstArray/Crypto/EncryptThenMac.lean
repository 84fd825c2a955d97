import ConstArray.Crypto.Fake
import ConstArray.Crypto.Hmac
import ConstArray.Foundation.Digits

/-! # Encrypt-then-MAC

`EncryptThenMac<C, M>` encrypts with any stream cipher and authenticates nonce,
associated data, ciphertext and both lengths with any MAC. The MAC input
determines what went into it, and opening is the exact inverse of sealing.
-/

namespace ConstArray

open Foundation

variable {w : Nat} {σ : Type}

/-- `EncryptThenMac<C, M>`. -/
structure EncryptThenMac (C : StreamCipher σ) (M : Mac σ) where
  cipherKey : Array UInt8 C.keySize
  macKey : Array UInt8 M.keySize

namespace EncryptThenMac

variable {C : StreamCipher σ} {M : Mac σ}

/-- `EncryptThenMac::tag`. -/
def tag (self : EncryptThenMac C M) (nonce : Array UInt8 C.nonceSize)
    (aad ciphertext : List UInt8) : Exec σ (Array UInt8 M.tagSize) := do
  let mac ← M.new self.macKey
  let mac ← M.update mac nonce.flat
  let mac ← M.update mac aad
  let mac ← M.update mac ciphertext
  let mac ← M.update mac (toBeBytes aad.length.toUInt64)
  let mac ← M.update mac (toBeBytes ciphertext.length.toUInt64)
  M.finalize mac

variable (C M) in
/-- `impl Aead for EncryptThenMac<C, M>`. -/
abbrev asAead : Aead σ where
  State := EncryptThenMac C M
  keySize := .sum C.keySize M.keySize
  nonceSize := C.nonceSize
  tagSize := M.tagSize
  new key := do
    let (cipherKey, macKey) ← Exec.ofOption key.parts
    return {
      cipherKey := ← cipherKey.clone Array.noDrop pure
      macKey := ← macKey.clone Array.noDrop pure }
  encryptInPlaceDetached self nonce aad buf := do
    let (buf, _) ← C.applyKeystream (← C.new self.cipherKey nonce) buf
    return (buf, ← self.tag nonce aad buf.toList)
  decryptInPlaceDetached self nonce aad buf tag := do
    if !(← ctEq (← self.tag nonce aad buf.toList) tag) then return (buf, .error ⟨⟩)
    let (buf, _) ← C.applyKeystream (← C.new self.cipherKey nonce) buf
    return (buf, .ok ())

/-! ## The MAC input -/

/-- What the MAC authenticates. -/
def macInput {N : ConcreteSize} (nonce : Array UInt8 N) (aad ciphertext : List UInt8) :
    List UInt8 :=
  nonce.flat ++ (aad ++ (ciphertext ++
    (toBeBytes aad.length.toUInt64 ++ toBeBytes ciphertext.length.toUInt64)))

theorem tag_eq (hM : M.Streaming) (self : EncryptThenMac C M) (nonce : Array UInt8 C.nonceSize)
    (aad ciphertext : List UInt8) :
    self.tag nonce aad ciphertext =
      pure (hM.mac self.macKey (macInput nonce aad ciphertext)) := by
  simp only [tag, (hM.absorbing self.macKey).start_eq, (hM.absorbing self.macKey).update_eq,
    pure_bind, List.nil_append, List.append_assoc, hM.finalize_eq, macInput]

/-- A keystream and a MAC that streams make an AEAD. -/
def sealing (hC : C.Keystream w) (hM : M.Streaming) : (asAead C M).Sealing w where
  state key := { cipherKey := key.left, macKey := key.right }
  encrypt key nonce _ buf := xorKeystream (hC.keystream key.left nonce) buf
  decrypt key nonce _ buf := xorKeystream (hC.keystream key.left nonce) buf
  tag key nonce aad ciphertext := hM.mac key.right (macInput nonce aad ciphertext)
  new_eq key := by
    simp only [Array.parts_eq_halves, Exec.ofOption_some, pure_bind, Array.clone_pure]
  encrypt_eq key nonce aad n buf hn := by
    have happly := hC.applyKeystream_eq key.left nonce 0 buf (by omega)
    simp only [hC.new_eq, pure_bind, happly, tag_eq hM, Nat.zero_add]
  decrypt_eq key nonce aad n buf t hn := by
    have happly := hC.applyKeystream_eq key.left nonce 0 buf (by omega)
    simp only [tag_eq hM, pure_bind, ctEq_eq, hC.new_eq, happly, Nat.zero_add]
    by_cases htag : hM.mac key.right (macInput nonce aad buf.toList) = t
    · simp [htag]
    · simp [htag]
  decrypt_encrypt key nonce n buf := xorKeystream_xorKeystream _ buf
  encrypt_decrypt key nonce n buf := xorKeystream_xorKeystream _ buf

/-- For every stream cipher, every MAC and fixed-size messages of any size: sealing and
opening always return, a ciphertext opens to a message if and only if it is what the message
seals to, and a buffer that is rejected stays as it was. -/
theorem opens_what_it_seals (hC : C.Keystream w) (hM : M.Streaming) (key : (asAead C M).Key)
    (nonce : (asAead C M).Nonce) (aad : List UInt8) {P : ConcreteSize} (hP : P.count < 2 ^ w) :
    ∃ (self : EncryptThenMac C M)
      (sealed : Array UInt8 P → Array UInt8 (.sum P M.tagSize))
      (opened : Array UInt8 (.sum P M.tagSize) → Except Error (Array UInt8 P)),
      (asAead C M).new key = pure self ∧
      (∀ msg, (asAead C M).seal self nonce aad msg = pure (sealed msg)) ∧
      (∀ c, (asAead C M).open self nonce aad c = pure (opened c)) ∧
      (∀ msg c, opened c = .ok msg ↔ sealed msg = c) ∧
      ∀ n < 2 ^ w, ∀ (buf : List.Vector UInt8 n) (t : Array UInt8 M.tagSize), ∃ buf' r,
        (asAead C M).decryptInPlaceDetached self nonce aad buf t = pure (buf', r) ∧
        (r = .error ⟨⟩ → buf' = buf) := by
  let h := sealing hC hM
  refine ⟨h.state key, h.sealed key nonce aad, h.opened key nonce aad, h.new_eq key,
    h.seal_eq key nonce aad hP, h.open_eq key nonce aad hP,
    fun msg c => h.opened_eq_ok key nonce aad, ?_⟩
  intro n hn buf t
  by_cases htag : h.tag key nonce aad buf.toList = t
  · refine ⟨h.decrypt key nonce buf, .ok (), ?_, nofun⟩
    rw [h.decrypt_eq key nonce aad buf t hn, if_pos htag]
  · refine ⟨buf, .error ⟨⟩, ?_, fun _ => rfl⟩
    rw [h.decrypt_eq key nonce aad buf t hn, if_neg htag]

end EncryptThenMac

/-- `MyAead`. -/
abbrev MyAead (overflowChecks : Bool) : Aead σ :=
  EncryptThenMac.asAead (FakeCipher.chaCha20 64 overflowChecks)
    (Hmac.asMac (FakeDigest.sha256 overflowChecks))

namespace MyAead

/-- `MyAead` seals with the keystream of the fake cipher and the fake HMAC. -/
def sealing (overflowChecks : Bool) : (MyAead (σ := σ) overflowChecks).Sealing 64 :=
  EncryptThenMac.sealing (FakeCipher.keystream 64 overflowChecks 32 12)
    (Hmac.streaming FakeDigest.sha256Streaming)

/-- The key of `main` wrapped with `MyAead`. -/
theorem opens_wrapped_key :
    ∃ (self : (MyAead (σ := Unit) true).State)
      (sealed : Array UInt8 (.len 32) → Array UInt8 (.sum (.len 32) (.len 32)))
      (opened : Array UInt8 (.sum (.len 32) (.len 32)) → Except Error (Array UInt8 (.len 32))),
      (MyAead true).new (.tabulate _ fun i => .ofNat (i * 7 + 3)) = (pure self : Exec Unit _) ∧
      (∀ msg, (MyAead true).seal self (.tabulate _ fun _ => 9) [] msg =
        (pure (sealed msg) : Exec Unit _)) ∧
      (∀ c, (MyAead true).open self (.tabulate _ fun _ => 9) [] c =
        (pure (opened c) : Exec Unit _)) ∧
      (∀ msg c, opened c = .ok msg ↔ sealed msg = c) ∧
      ∀ n < 2 ^ 64, ∀ (buf : List.Vector UInt8 n) (t : Array UInt8 (.len 32)), ∃ buf' r,
        (MyAead true).decryptInPlaceDetached self (.tabulate _ fun _ => 9) [] buf t =
          (pure (buf', r) : Exec Unit _) ∧
        (r = .error ⟨⟩ → buf' = buf) :=
  EncryptThenMac.opens_what_it_seals (FakeCipher.keystream 64 true 32 12)
    (Hmac.streaming FakeDigest.sha256Streaming) _ _ _ (by decide)

end MyAead

end ConstArray
