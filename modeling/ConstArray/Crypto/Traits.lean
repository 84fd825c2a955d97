import ConstArray.Array.Total
import ConstArray.Foundation.Absorb
import ConstArray.Foundation.SliceLoop

/-! # Traits over fixed-size byte arrays

A trait is a structure with its associated sizes and methods, a type that
implements it is a value of the structure. The methods are computations, so an
implementation may panic or keep state of its own. `&[u8]` is a list,
`&mut [u8]` a function between vectors, and a shared reference to an array is the
array.
-/

namespace ConstArray

open Foundation

variable {w : Nat} {σ : Type}

/-- Bytes have no destructor. -/
def Array.noDrop {X : Type} (_ : X) : Dtor σ := Dtor.noop

instance {S : ConcreteSize} {X : Type} [DecidableEq X] : DecidableEq (Array X S) := fun a b =>
  decidable_of_iff (a.flat = b.flat) ⟨Array.ext_flat, congrArg _⟩

/-- `Error`. -/
structure Error where
  deriving DecidableEq, Repr

/-- `ct_eq`. -/
def ctEq {S : ConcreteSize} (a b : Array UInt8 S) : Exec σ Bool := do
  let diff ← a.zipWith Array.noDrop (fun x y => pure (x ^^^ y)) b
  return diff.flat.foldl (fun acc d => acc ||| d) 0 == 0

theorem foldl_or_eq_zero (ds : List UInt8) (acc : UInt8) :
    ds.foldl (fun acc d => acc ||| d) acc = 0 ↔ acc = 0 ∧ ∀ d ∈ ds, d = 0 := by
  induction ds generalizing acc with
  | nil => simp
  | cons d ds ih => rw [List.foldl_cons, ih, UInt8.or_eq_zero_iff, List.forall_mem_cons, and_assoc]

theorem zipWith_xor_eq_zero {xs ys : List UInt8} (h : xs.length = ys.length) :
    (∀ d ∈ List.zipWith (fun x y => x ^^^ y) xs ys, d = 0) ↔ xs = ys := by
  induction xs generalizing ys with
  | nil =>
      rw [List.length_nil, eq_comm, List.length_eq_zero_iff] at h
      simp [h]
  | cons x xs ih =>
      obtain ⟨y, ys, rfl⟩ := List.exists_cons_of_length_eq_add_one h.symm
      rw [List.zipWith_cons_cons, List.forall_mem_cons, UInt8.xor_eq_zero_iff,
        ih (by simpa using h), List.cons.injEq]

/-- The comparison without branches decides equality. -/
theorem ctEq_eq {S : ConcreteSize} (a b : Array UInt8 S) :
    (ctEq a b : Exec σ Bool) = pure (decide (a = b)) := by
  have hfold : ((a.zipValues (fun x y => x ^^^ y) b).flat.foldl (fun acc d => acc ||| d) 0 == 0) =
      decide (a = b) := by
    rw [Bool.eq_iff_iff, beq_iff_eq, foldl_or_eq_zero, Array.flat_zipValues,
      zipWith_xor_eq_zero (by simp), decide_eq_true_iff]
    exact ⟨fun h => Array.ext_flat h.2, fun h => ⟨rfl, congrArg _ h⟩⟩
  rw [ctEq, Array.zipWith_pure Array.noDrop fun _ _ => rfl, pure_bind, hfold]

/-- The trait `Digest`. -/
structure Digest (w : Nat) (σ : Type) where
  State : Type
  outputSize : ConcreteSize
  blockSize : ConcreteSize
  outputFitsBlock : AtMost.Derivation w outputSize blockSize
  default : Exec σ State
  update : State → List UInt8 → Exec σ State
  finalize : State → Exec σ (Array UInt8 outputSize)

namespace Digest

/-- `Output<D>`. -/
abbrev Output (D : Digest w σ) : Type := Array UInt8 D.outputSize

variable (D : Digest w σ)

/-- `Digest::chain`. -/
def chain (self : D.State) (data : List UInt8) : Exec σ D.State := do
  let self ← D.update self data
  return self

/-- `Digest::digest`. -/
def digest (data : List UInt8) : Exec σ D.Output := do
  D.finalize (← D.chain (← D.default) data)

/-- A digest that streams: it hashes the concatenation of its updates. -/
structure Streaming extends Absorbing D.default D.update where
  hash : List UInt8 → D.Output
  finalize_eq : ∀ data, D.finalize (state data) = pure (hash data)

namespace Streaming

variable {D} (h : D.Streaming)

theorem chain_eq (data piece : List UInt8) :
    D.chain (h.state data) piece = pure (h.state (data ++ piece)) := by
  rw [chain, h.update_eq]

/-- One-shot hashing is the hash function. -/
theorem digest_eq (data : List UInt8) : D.digest data = pure (h.hash data) := by
  rw [digest, h.start_eq, pure_bind, h.chain_eq, pure_bind, h.finalize_eq, List.nil_append]

end Streaming

end Digest

/-- The trait `Mac`. -/
structure Mac (σ : Type) where
  State : Type
  keySize : ConcreteSize
  tagSize : ConcreteSize
  new : Array UInt8 keySize → Exec σ State
  update : State → List UInt8 → Exec σ State
  finalize : State → Exec σ (Array UInt8 tagSize)

/-- `Mac::verify`. -/
def Mac.verify (M : Mac σ) (self : M.State) (tag : Array UInt8 M.tagSize) :
    Exec σ (Except Error Unit) := do
  if ← ctEq (← M.finalize self) tag then return .ok () else return .error ⟨⟩

/-- `verify` compares the tag that `finalize` returns. -/
theorem Mac.verify_eq {M : Mac σ} {self : M.State} {computed : Array UInt8 M.tagSize}
    (h : M.finalize self = pure computed) (tag : Array UInt8 M.tagSize) :
    M.verify self tag = pure (if computed = tag then .ok () else .error ⟨⟩) := by
  rw [verify, h, pure_bind, ctEq_eq, pure_bind]
  by_cases heq : computed = tag
  · simp [heq]
  · simp [heq]

/-- A MAC that streams: the tag is a function of the key and the concatenation of
the updates. -/
structure Mac.Streaming (M : Mac σ) where
  absorbing : ∀ key, Absorbing (M.new key) M.update
  mac : Array UInt8 M.keySize → List UInt8 → Array UInt8 M.tagSize
  finalize_eq : ∀ key data, M.finalize ((absorbing key).state data) = pure (mac key data)

/-- The trait `StreamCipher`. -/
structure StreamCipher (σ : Type) where
  State : Type
  keySize : ConcreteSize
  nonceSize : ConcreteSize
  new : Array UInt8 keySize → Array UInt8 nonceSize → Exec σ State
  applyKeystream {n : Nat} : State → List.Vector UInt8 n → Exec σ (List.Vector UInt8 n × State)

namespace StreamCipher

variable (C : StreamCipher σ)

/-- One call of `apply_keystream` after another, on the pieces of a text. -/
def applyPieces : C.State → List (List UInt8) → Exec σ (List (List UInt8) × C.State)
  | self, [] => pure ([], self)
  | self, piece :: pieces => do
      let (buf, self) ← C.applyKeystream self (wholeSlice piece)
      let (pieces, self) ← applyPieces self pieces
      return (buf.toList :: pieces, self)

/-- A new cipher for a text that comes in pieces. -/
def cryptPieces (key : Array UInt8 C.keySize) (nonce : Array UInt8 C.nonceSize)
    (pieces : List (List UInt8)) : Exec σ (List (List UInt8)) := do
  let (pieces, _) ← C.applyPieces (← C.new key nonce) pieces
  return pieces

end StreamCipher

/-- XOR with the bytes of a keystream. -/
def xorKeystream (keystream : Nat → UInt8) {n : Nat} (buf : List.Vector UInt8 n) :
    List.Vector UInt8 n :=
  mapSlice (fun i b => b ^^^ keystream i) buf

@[simp] theorem xorKeystream_xorKeystream (keystream : Nat → UInt8) {n : Nat}
    (buf : List.Vector UInt8 n) :
    xorKeystream keystream (xorKeystream keystream buf) = buf := by
  have hxor : (fun i => (fun b : UInt8 => b ^^^ keystream i) ∘ fun b => b ^^^ keystream i) =
      fun _ => id := by
    funext i b
    rw [Function.comp_apply, UInt8.xor_assoc, UInt8.xor_self, UInt8.xor_zero]
    rfl
  rw [xorKeystream, xorKeystream, mapSlice_mapSlice, hxor, mapSlice_id]

/-- A cipher that XORs a keystream derived from key and nonce into the data, going
on where the last call stopped, for as long as the position fits into a word. -/
structure StreamCipher.Keystream (w : Nat) (C : StreamCipher σ) where
  keystream : Array UInt8 C.keySize → Array UInt8 C.nonceSize → Nat → UInt8
  state : Array UInt8 C.keySize → Array UInt8 C.nonceSize → Nat → C.State
  new_eq : ∀ key nonce, C.new key nonce = pure (state key nonce 0)
  applyKeystream_eq : ∀ key nonce pos {n : Nat} (buf : List.Vector UInt8 n), pos + n < 2 ^ w →
    C.applyKeystream (state key nonce pos) buf =
      pure (xorKeystream (fun i => keystream key nonce (pos + i)) buf, state key nonce (pos + n))

/-- The trait `Aead`. -/
structure Aead (σ : Type) where
  State : Type
  keySize : ConcreteSize
  nonceSize : ConcreteSize
  tagSize : ConcreteSize
  new : Array UInt8 keySize → Exec σ State
  encryptInPlaceDetached {n : Nat} : State → Array UInt8 nonceSize → List UInt8 →
    List.Vector UInt8 n → Exec σ (List.Vector UInt8 n × Array UInt8 tagSize)
  decryptInPlaceDetached {n : Nat} : State → Array UInt8 nonceSize → List UInt8 →
    List.Vector UInt8 n → Array UInt8 tagSize → Exec σ (List.Vector UInt8 n × Except Error Unit)

namespace Aead

/-- `Key<A>`. -/
abbrev Key (A : Aead σ) : Type := Array UInt8 A.keySize

/-- `Nonce<A>`. -/
abbrev Nonce (A : Aead σ) : Type := Array UInt8 A.nonceSize

/-- `Tag<A>`. -/
abbrev Tag (A : Aead σ) : Type := Array UInt8 A.tagSize

variable (A : Aead σ) {P : ConcreteSize}

/-- `Aead::seal`. -/
def «seal» (self : A.State) (nonce : A.Nonce) (aad : List UInt8) (msg : Array UInt8 P) :
    Exec σ (Array UInt8 (.sum P A.tagSize)) := do
  let (buf, tag) ← A.encryptInPlaceDetached self nonce aad msg.toVector
  Exec.ofOption ((Array.ofVector buf).concat tag)

/-- `Aead::open`. -/
def «open» (self : A.State) (nonce : A.Nonce) (aad : List UInt8)
    (sealed : Array UInt8 (.sum P A.tagSize)) : Exec σ (Except Error (Array UInt8 P)) := do
  let (msg, tag) ← Exec.ofOption sealed.parts
  match ← A.decryptInPlaceDetached self nonce aad msg.toVector tag with
  | (buf, .ok ()) => return .ok (Array.ofVector buf)
  | (_, .error e) => return .error e

/-- An AEAD whose tag is a function of key, nonce, associated data and ciphertext,
on buffers of which the length fits into a word. -/
structure Sealing (w : Nat) (A : Aead σ) where
  state : A.Key → A.State
  encrypt : A.Key → A.Nonce → {n : Nat} → List.Vector UInt8 n → List.Vector UInt8 n
  decrypt : A.Key → A.Nonce → {n : Nat} → List.Vector UInt8 n → List.Vector UInt8 n
  tag : A.Key → A.Nonce → List UInt8 → List UInt8 → A.Tag
  new_eq : ∀ key, A.new key = pure (state key)
  encrypt_eq : ∀ key nonce aad {n : Nat} (buf : List.Vector UInt8 n), n < 2 ^ w →
    A.encryptInPlaceDetached (state key) nonce aad buf =
      pure (encrypt key nonce buf, tag key nonce aad (encrypt key nonce buf).toList)
  decrypt_eq : ∀ key nonce aad {n : Nat} (buf : List.Vector UInt8 n) t, n < 2 ^ w →
    A.decryptInPlaceDetached (state key) nonce aad buf t =
      pure (if tag key nonce aad buf.toList = t then (decrypt key nonce buf, .ok ())
        else (buf, .error ⟨⟩))
  decrypt_encrypt : ∀ key nonce {n : Nat} (buf : List.Vector UInt8 n),
    decrypt key nonce (encrypt key nonce buf) = buf
  encrypt_decrypt : ∀ key nonce {n : Nat} (buf : List.Vector UInt8 n),
    encrypt key nonce (decrypt key nonce buf) = buf

namespace Sealing

variable {A} (h : A.Sealing w) (key : A.Key) (nonce : A.Nonce) (aad : List UInt8)

/-- The sealed form of a message. -/
def sealed (msg : Array UInt8 P) : Array UInt8 (.sum P A.tagSize) :=
  (Array.ofVector (h.encrypt key nonce msg.toVector)).append
    (h.tag key nonce aad (h.encrypt key nonce msg.toVector).toList)

/-- What a sealed message opens to. -/
def opened (c : Array UInt8 (.sum P A.tagSize)) : Except Error (Array UInt8 P) :=
  if h.tag key nonce aad c.left.flat = c.right then
    .ok (Array.ofVector (h.decrypt key nonce c.left.toVector))
  else .error ⟨⟩

theorem seal_eq (hP : P.count < 2 ^ w) (msg : Array UInt8 P) :
    A.seal (h.state key) nonce aad msg = pure (h.sealed key nonce aad msg) := by
  rw [«seal», h.encrypt_eq key nonce aad _ hP, pure_bind]
  dsimp only
  rw [Array.concat_eq_append]
  rfl

theorem open_eq (hP : P.count < 2 ^ w) (c : Array UInt8 (.sum P A.tagSize)) :
    A.open (h.state key) nonce aad c = pure (h.opened key nonce aad c) := by
  rw [«open», Array.parts_eq_halves, Exec.ofOption_some, pure_bind]
  dsimp only
  rw [h.decrypt_eq key nonce aad _ _ hP, pure_bind, Array.toList_toVector, opened]
  by_cases htag : h.tag key nonce aad c.left.flat = c.right
  · rw [if_pos htag, if_pos htag]
  · rw [if_neg htag, if_neg htag]

/-- A message opens to `msg` only if it is what `msg` seals to. -/
theorem opened_eq_ok {msg : Array UInt8 P} {c : Array UInt8 (.sum P A.tagSize)} :
    h.opened key nonce aad c = .ok msg ↔ h.sealed key nonce aad msg = c := by
  unfold opened sealed
  constructor
  · intro hopen
    split at hopen
    next htag =>
      cases hopen
      rw [Array.toVector_ofVector, h.encrypt_decrypt, Array.ofVector_toVector,
        Array.toList_toVector, htag, Array.append_left_right]
    next => cases hopen
  · rintro rfl
    rw [Array.left_append, Array.right_append, Array.flat_ofVector, if_pos rfl,
      Array.toVector_ofVector, h.decrypt_encrypt, Array.ofVector_toVector]

end Sealing

end Aead

/-- The trait `Rng`. -/
structure Rng (σ : Type) where
  State : Type
  fillBytes {n : Nat} : State → List.Vector UInt8 n → Exec σ (List.Vector UInt8 n × State)

/-- `Rng::random`. -/
def Rng.random (R : Rng σ) (S : ConcreteSize) (self : R.State) :
    Exec σ (Array UInt8 S × R.State) := do
  let out ← Array.default Array.noDrop S (pure 0)
  let (buf, self) ← R.fillBytes self out.toVector
  return (Array.ofVector buf, self)

/-- The trait `Kem`. Its methods are generic over the source of randomness. -/
structure Kem (σ : Type) where
  encapsulationKeySize : ConcreteSize
  decapsulationKeySize : ConcreteSize
  ciphertextSize : ConcreteSize
  sharedSecretSize : ConcreteSize
  generate (R : Rng σ) : R.State →
    Exec σ ((Array UInt8 decapsulationKeySize × Array UInt8 encapsulationKeySize) × R.State)
  encapsulate (R : Rng σ) : Array UInt8 encapsulationKeySize → R.State →
    Exec σ ((Array UInt8 ciphertextSize × Array UInt8 sharedSecretSize) × R.State)
  decapsulate : Array UInt8 decapsulationKeySize → Array UInt8 ciphertextSize →
    Exec σ (Array UInt8 sharedSecretSize)

namespace Kem

/-- `EncapsulationKey<K>`. -/
abbrev EncapsulationKey (K : Kem σ) : Type := Array UInt8 K.encapsulationKeySize

/-- `DecapsulationKey<K>`. -/
abbrev DecapsulationKey (K : Kem σ) : Type := Array UInt8 K.decapsulationKeySize

/-- `Ciphertext<K>`. -/
abbrev Ciphertext (K : Kem σ) : Type := Array UInt8 K.ciphertextSize

/-- `SharedSecret<K>`. -/
abbrev SharedSecret (K : Kem σ) : Type := Array UInt8 K.sharedSecretSize

end Kem

end ConstArray
