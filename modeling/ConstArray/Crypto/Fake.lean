import ConstArray.Crypto.Traits
import ConstArray.Foundation.Usize
import Mathlib.Data.List.SplitLengths

/-! # Stand-ins for primitives

They have the sizes of real primitives and enough behavior to be used in their
place: the digest streams, the cipher XORs a keystream, and both sides of the KEM
agree on the secret, if it is not longer than the keys and ciphertexts.
-/

namespace ConstArray

open Foundation

variable {w : Nat} {overflowChecks : Bool} {σ : Type} {OUT BLOCK KEY NONCE EK CT SS : Nat}

/-! ## `FakeDigest` -/

/-- `FakeDigest<OUT, BLOCK>`. -/
structure FakeDigest where
  state : UInt64
  deriving DecidableEq, Repr

namespace FakeDigest

/-- `FakeDigest::default`. -/
def default : FakeDigest := { state := 0xcbf29ce484222325 }

/-- The loop of `FakeDigest::update`. -/
def update (self : FakeDigest) (data : List UInt8) : FakeDigest :=
  data.foldl (fun self b => { state := (self.state ^^^ b.toUInt64) * 0x100000001b3 }) self

/-- `u64::rotate_left`. -/
def rotateLeft (x : UInt64) (n : Nat) : UInt64 := .ofBitVec (x.toBitVec.rotateLeft n)

/-- `FakeDigest::finalize`. The bit offset is computed as a `u32`. -/
def finalize (overflowChecks : Bool) (OUT : Nat) (self : FakeDigest) :
    Exec σ (Array UInt8 (.len OUT)) :=
  Array.fromFn Array.noDrop (.len OUT) fun i => do
    let offset ← mulUsize 32 overflowChecks 8 (i % 2 ^ 32)
    return (rotateLeft self.state offset).toUInt8 ^^^ .ofNat i

/-- `impl Digest for FakeDigest<OUT, BLOCK>`, whose proof `AtMost::checked` is evaluated
when it is used. -/
abbrev asDigest (overflowChecks : Bool) {p : AtMost (.len OUT : ConcreteSize) (.len BLOCK)}
    (h : AtMost.checked w (.len OUT) (.len BLOCK) = some p) : Digest w σ where
  State := FakeDigest
  outputSize := .len OUT
  blockSize := .len BLOCK
  outputFitsBlock := .checked h
  default := pure default
  update self data := pure (self.update data)
  finalize := finalize overflowChecks OUT

/-- Byte `i` of the output. -/
def outputByte (self : FakeDigest) (i : Nat) : UInt8 :=
  (rotateLeft self.state (8 * i)).toUInt8 ^^^ .ofNat i

theorem finalize_eq (hOUT : OUT ≤ 2 ^ 29) (self : FakeDigest) :
    finalize overflowChecks OUT self =
      (pure (.tabulate (.len OUT) self.outputByte) : Exec σ _) := by
  apply Array.fromFn_pure
  intro i hi
  have hlt : i < 2 ^ 29 := Nat.lt_of_lt_of_le hi hOUT
  rw [Nat.mod_eq_of_lt (by omega), mulUsize_of_lt (by omega), pure_bind, outputByte]

theorem update_append (self : FakeDigest) (data piece : List UInt8) :
    self.update (data ++ piece) = (self.update data).update piece :=
  List.foldl_append

/-- The accumulator streams, as long as no bit offset overflows. -/
def streaming (hOUT : OUT ≤ 2 ^ 29) {p : AtMost (.len OUT : ConcreteSize) (.len BLOCK)}
    (h : AtMost.checked w (.len OUT) (.len BLOCK) = some p) :
    (asDigest overflowChecks h : Digest w σ).Streaming where
  state data := default.update data
  start_eq := rfl
  update_eq data piece := by rw [update_append]
  hash data := .tabulate (.len OUT) (default.update data).outputByte
  finalize_eq data := finalize_eq hOUT _

/-- `FakeSha256`. -/
abbrev sha256 (overflowChecks : Bool) : Digest 64 σ :=
  asDigest overflowChecks (show AtMost.checked 64 (.len 32) (.len 64) = some ⟨⟩ from rfl)

/-- `FakeSha512`. -/
abbrev sha512 (overflowChecks : Bool) : Digest 64 σ :=
  asDigest overflowChecks (show AtMost.checked 64 (.len 64) (.len 128) = some ⟨⟩ from rfl)

def sha256Streaming : (sha256 overflowChecks : Digest 64 σ).Streaming := streaming (by decide) rfl

def sha512Streaming : (sha512 overflowChecks : Digest 64 σ).Streaming := streaming (by decide) rfl

end FakeDigest

/-! ## `FakeCipher` -/

/-- `FakeCipher<KEY, NONCE>`. -/
structure FakeCipher (KEY NONCE : Nat) where
  key : Array UInt8 (.len KEY)
  nonce : Array UInt8 (.len NONCE)
  pos : Nat

namespace FakeCipher

/-- The body of the loop of `FakeCipher::apply_keystream`. -/
def step (w : Nat) (overflowChecks : Bool) (self : FakeCipher KEY NONCE) (b : UInt8) :
    Exec σ (UInt8 × FakeCipher KEY NONCE) := do
  let k := self.key.flat[self.pos % max KEY 1]?.getD 0
  let n := self.nonce.flat[self.pos % max NONCE 1]?.getD 0
  let b := b ^^^ (k ^^^ n ^^^ .ofNat self.pos)
  let pos ← addUsize w overflowChecks self.pos 1
  return (b, { self with pos })

/-- `impl StreamCipher for FakeCipher<KEY, NONCE>`. -/
abbrev asStreamCipher (w : Nat) (overflowChecks : Bool) (KEY NONCE : Nat) : StreamCipher σ where
  State := FakeCipher KEY NONCE
  keySize := .len KEY
  nonceSize := .len NONCE
  new key nonce := pure { key, nonce, pos := 0 }
  applyKeystream self buf := do
    let (buf, self) ← forMut (step w overflowChecks) self buf
    return (buf, self)

/-- Byte `pos` of the keystream. -/
def keystreamByte (key : Array UInt8 (.len KEY)) (nonce : Array UInt8 (.len NONCE)) (pos : Nat) :
    UInt8 :=
  key.flat[pos % max KEY 1]?.getD 0 ^^^ nonce.flat[pos % max NONCE 1]?.getD 0 ^^^ .ofNat pos

/-- Byte by byte, the loop XORs the keystream. -/
def keystream (w : Nat) (overflowChecks : Bool) (KEY NONCE : Nat) :
    (asStreamCipher w overflowChecks KEY NONCE : StreamCipher σ).Keystream w where
  keystream := keystreamByte
  state key nonce pos := { key, nonce, pos }
  new_eq key nonce := rfl
  applyKeystream_eq key nonce pos n buf h := by
    have hbody : ∀ i < n, ∀ b, step (σ := σ) w overflowChecks ⟨key, nonce, pos + i⟩ b =
        pure (b ^^^ keystreamByte key nonce (pos + i), ⟨key, nonce, pos + i + 1⟩) := by
      intro i hi b
      dsimp only [step]
      rw [addUsize_of_lt (by omega), pure_bind]
      rfl
    have hloop := forMut_eq (fun i b => b ^^^ keystreamByte key nonce i)
      (fun pos => (⟨key, nonce, pos⟩ : FakeCipher KEY NONCE)) hbody buf
    dsimp only
    rw [hloop, pure_bind]
    rfl

/-! ### Texts in pieces -/

/-- A text from byte `pos` on, XORed with the keystream, which starts over where the
position wraps around. -/
def cryptFrom (w : Nat) (key : Array UInt8 (.len KEY)) (nonce : Array UInt8 (.len NONCE))
    (pos : Nat) (text : List UInt8) : List UInt8 :=
  text.mapIdx fun i b => b ^^^ keystreamByte key nonce ((pos + i) % 2 ^ w)

variable {key : Array UInt8 (.len KEY)} {nonce : Array UInt8 (.len NONCE)} {pos : Nat}

/-- The cipher after `pos` bytes. -/
def after (w : Nat) (key : Array UInt8 (.len KEY)) (nonce : Array UInt8 (.len NONCE))
    (pos : Nat) : FakeCipher KEY NONCE :=
  { key, nonce, pos := pos % 2 ^ w }

/-- One byte. The position is counted modulo `2 ^ w` if it may wrap around. -/
theorem step_after (h : ¬(overflowChecks = true ∧ (pos + 1) % 2 ^ w = 0)) (b : UInt8) :
    (step w overflowChecks (after w key nonce pos) b : Exec σ _) =
      pure (b ^^^ keystreamByte key nonce (pos % 2 ^ w), after w key nonce (pos + 1)) := by
  have hlt : pos % 2 ^ w < 2 ^ w := Nat.mod_lt _ (Nat.two_pow_pos w)
  have hnext : (pos % 2 ^ w + 1) % 2 ^ w = (pos + 1) % 2 ^ w := Nat.mod_add_mod pos (2 ^ w) 1
  have hadd : (addUsize w overflowChecks (pos % 2 ^ w) 1 : Exec σ Nat) =
      pure ((pos + 1) % 2 ^ w) := by
    by_cases hwrap : pos % 2 ^ w + 1 < 2 ^ w
    · rw [addUsize_of_lt hwrap, ← hnext, Nat.mod_eq_of_lt hwrap]
    · have hlast : pos % 2 ^ w + 1 = 2 ^ w := by omega
      rw [hlast, Nat.mod_self] at hnext
      have hchecks : ¬overflowChecks = true := fun hchecks => h ⟨hchecks, hnext.symm⟩
      rw [addUsize, if_neg hwrap, if_neg hchecks, hlast, Nat.sub_self, hnext]
  dsimp only [step, after]
  rw [hadd, pure_bind]
  rfl

/-- The checked position panics instead of wrapping around. -/
theorem step_after_panic (h : (pos + 1) % 2 ^ w = 0) (b : UInt8) :
    (step w true (after w key nonce pos) b : Exec σ _) = Exec.panic := by
  have hnext : (pos % 2 ^ w + 1) % 2 ^ w = (pos + 1) % 2 ^ w := Nat.mod_add_mod pos (2 ^ w) 1
  have hwrap : ¬pos % 2 ^ w + 1 < 2 ^ w := by
    intro hlt
    rw [Nat.mod_eq_of_lt hlt, h] at hnext
    exact Nat.succ_ne_zero _ hnext
  dsimp only [step, after]
  rw [addUsize, if_neg hwrap, if_pos rfl]
  rfl

theorem cryptFrom_append (text more : List UInt8) :
    cryptFrom w key nonce pos (text ++ more) =
      cryptFrom w key nonce pos text ++ cryptFrom w key nonce (pos + text.length) more := by
  simp only [cryptFrom, List.mapIdx_append, Nat.add_assoc, Nat.add_comm text.length]

@[simp] theorem length_cryptFrom (text : List UInt8) :
    (cryptFrom w key nonce pos text).length = text.length :=
  List.length_mapIdx

/-- Encrypting twice is the identity. -/
@[simp] theorem cryptFrom_cryptFrom (text : List UInt8) :
    cryptFrom w key nonce pos (cryptFrom w key nonce pos text) = text :=
  congrArg List.Vector.toList (xorKeystream_xorKeystream
    (fun i => keystreamByte key nonce ((pos + i) % 2 ^ w)) (wholeSlice text))

theorem applyKeystream_after {n : Nat} (h : ¬(overflowChecks = true ∧ 2 ^ w ≤ pos + n))
    (buf : List.Vector UInt8 n) :
    (asStreamCipher w overflowChecks KEY NONCE : StreamCipher σ).applyKeystream
        (after w key nonce pos) buf =
      pure (xorKeystream (fun i => keystreamByte key nonce ((pos + i) % 2 ^ w)) buf,
        after w key nonce (pos + n)) := by
  have hbody : ∀ i < n, ∀ b, (step w overflowChecks (after w key nonce (pos + i)) b : Exec σ _) =
      pure (b ^^^ keystreamByte key nonce ((pos + i) % 2 ^ w),
        after w key nonce (pos + i + 1)) := by
    intro i hi b
    apply step_after
    rintro ⟨hchecks, hwrap⟩
    have hlt : pos + i + 1 < 2 ^ w := by
      have hfits : ¬2 ^ w ≤ pos + n := fun hle => h ⟨hchecks, hle⟩
      omega
    rw [Nat.mod_eq_of_lt hlt] at hwrap
    exact Nat.succ_ne_zero _ hwrap
  have hloop := forMut_eq (fun i b => b ^^^ keystreamByte key nonce (i % 2 ^ w))
    (after w key nonce) hbody buf
  dsimp only
  rw [hloop, pure_bind]
  rfl

/-- The byte after the last position panics. -/
theorem applyKeystream_after_panic {n : Nat} (hpos : pos < 2 ^ w) (h : 2 ^ w ≤ pos + n)
    (buf : List.Vector UInt8 n) :
    (asStreamCipher w true KEY NONCE : StreamCipher σ).applyKeystream
        (after w key nonce pos) buf = Exec.panic := by
  have hbody : ∀ i < 2 ^ w - 1 - pos, ∀ b,
      (step w true (after w key nonce (pos + i)) b : Exec σ _) =
        pure (b ^^^ keystreamByte key nonce ((pos + i) % 2 ^ w),
          after w key nonce (pos + i + 1)) := by
    intro i hi b
    apply step_after
    rintro ⟨-, hwrap⟩
    rw [Nat.mod_eq_of_lt (by omega)] at hwrap
    exact Nat.succ_ne_zero _ hwrap
  have hlast : pos + (2 ^ w - 1 - pos) + 1 = 2 ^ w := by omega
  have hloop := forMut_panic (fun i b => b ^^^ keystreamByte key nonce (i % 2 ^ w))
    (after w key nonce) (by omega) hbody
    (fun b => step_after_panic (by rw [hlast, Nat.mod_self]) b) buf
  dsimp only
  rw [hloop, Exec.panic_bind]

theorem splitLengths_append {X : Type} {n : Nat} {ns : List Nat} {xs ys : List X}
    (h : xs.length = n) : (n :: ns).splitLengths (xs ++ ys) = xs :: ns.splitLengths ys := by
  rw [List.splitLengths, List.splitAt_eq, ← h, List.take_left, List.drop_left]

/-- The pieces are encrypted like the text that they are pieces of. -/
theorem applyPieces_after {pieces : List (List UInt8)}
    (h : ¬(overflowChecks = true ∧ 2 ^ w ≤ pos + pieces.flatten.length)) :
    (asStreamCipher w overflowChecks KEY NONCE : StreamCipher σ).applyPieces
        (after w key nonce pos) pieces =
      pure ((pieces.map List.length).splitLengths (cryptFrom w key nonce pos pieces.flatten),
        after w key nonce (pos + pieces.flatten.length)) := by
  induction pieces generalizing pos with
  | nil => rfl
  | cons piece pieces ih =>
      rw [List.flatten_cons, List.length_append] at h
      have hpiece : ¬(overflowChecks = true ∧ 2 ^ w ≤ pos + piece.length) :=
        fun hoverflow => h ⟨hoverflow.1, by omega⟩
      have hrest : ¬(overflowChecks = true ∧
          2 ^ w ≤ pos + piece.length + pieces.flatten.length) :=
        fun hoverflow => h ⟨hoverflow.1, by omega⟩
      have hlength : (cryptFrom w key nonce pos piece).length = piece.length :=
        length_cryptFrom piece
      rw [StreamCipher.applyPieces, applyKeystream_after hpiece, pure_bind]
      dsimp only
      rw [ih hrest, pure_bind, List.flatten_cons, cryptFrom_append, List.map_cons,
        splitLengths_append hlength, List.length_append, Nat.add_assoc]
      rfl

theorem applyPieces_after_panic {pieces : List (List UInt8)} (hpos : pos < 2 ^ w)
    (h : 2 ^ w ≤ pos + pieces.flatten.length) :
    (asStreamCipher w true KEY NONCE : StreamCipher σ).applyPieces (after w key nonce pos) pieces =
      Exec.panic := by
  induction pieces generalizing pos with
  | nil => exact absurd h (Nat.not_le.mpr hpos)
  | cons piece pieces ih =>
      rw [List.flatten_cons, List.length_append] at h
      rw [StreamCipher.applyPieces]
      by_cases hpiece : 2 ^ w ≤ pos + piece.length
      · rw [applyKeystream_after_panic hpos hpiece, Exec.panic_bind]
      · have hfits : ¬(true = true ∧ 2 ^ w ≤ pos + piece.length) := fun hle => hpiece hle.2
        rw [applyKeystream_after hfits, pure_bind]
        dsimp only
        rw [ih (Nat.not_le.mp hpiece) (by omega), Exec.panic_bind]

/-- What a new cipher returns for a text in pieces. -/
theorem cryptPieces_eq (w : Nat) (overflowChecks : Bool) (key : Array UInt8 (.len KEY))
    (nonce : Array UInt8 (.len NONCE)) (pieces : List (List UInt8)) :
    (asStreamCipher w overflowChecks KEY NONCE : StreamCipher σ).cryptPieces key nonce pieces =
      if overflowChecks = true ∧ 2 ^ w ≤ pieces.flatten.length then Exec.panic
      else pure ((pieces.map List.length).splitLengths
        (cryptFrom w key nonce 0 pieces.flatten)) := by
  have hnew : (asStreamCipher w overflowChecks KEY NONCE : StreamCipher σ).new key nonce =
      pure (after w key nonce 0) := by
    rw [after, Nat.zero_mod]
  rw [StreamCipher.cryptPieces, hnew, pure_bind]
  split
  next h =>
    obtain ⟨rfl, hoverflow⟩ := h
    rw [applyPieces_after_panic (Nat.two_pow_pos w) (by rwa [Nat.zero_add]), Exec.panic_bind]
  next h =>
    rw [applyPieces_after (by rwa [Nat.zero_add]), pure_bind]

/-- The pieces of a text that was cut, put together again. -/
theorem flatten_splitLengths_cryptFrom (key : Array UInt8 (.len KEY))
    (nonce : Array UInt8 (.len NONCE)) (pieces : List (List UInt8)) :
    ((pieces.map List.length).splitLengths (cryptFrom w key nonce 0 pieces.flatten)).flatten =
      cryptFrom w key nonce 0 pieces.flatten := by
  apply List.flatten_splitLengths
  rw [length_cryptFrom, List.length_flatten]

/-- Only the text counts: a text is encrypted alike in any pieces, and decrypted in any
others, unless its length does not fit into the checked position. -/
theorem crypts_in_any_pieces (w : Nat) (overflowChecks : Bool) (key : Array UInt8 (.len KEY))
    (nonce : Array UInt8 (.len NONCE)) :
    (∀ pieces : List (List UInt8),
      (asStreamCipher w overflowChecks KEY NONCE : StreamCipher σ).cryptPieces key nonce pieces =
        if overflowChecks = true ∧ 2 ^ w ≤ pieces.flatten.length then Exec.panic
        else pure ((pieces.map List.length).splitLengths
          (cryptFrom w key nonce 0 pieces.flatten))) ∧
    (∀ text, cryptFrom w key nonce 0 (cryptFrom w key nonce 0 text) = text) ∧
    ∀ (pieces encrypted cuts : List (List UInt8)) (s t : σ),
      (asStreamCipher w overflowChecks KEY NONCE).cryptPieces key nonce pieces s =
        .ok encrypted t →
      cuts.flatten = encrypted.flatten →
      (asStreamCipher w overflowChecks KEY NONCE : StreamCipher σ).cryptPieces key nonce cuts =
        pure ((cuts.map List.length).splitLengths pieces.flatten) ∧
      ((cuts.map List.length).splitLengths pieces.flatten).flatten = pieces.flatten := by
  refine ⟨cryptPieces_eq w overflowChecks key nonce, cryptFrom_cryptFrom, ?_⟩
  intro pieces encrypted cuts s t hpieces hcuts
  rw [cryptPieces_eq] at hpieces
  split at hpieces
  next => cases hpieces
  next hfits =>
    cases hpieces
    rw [flatten_splitLengths_cryptFrom] at hcuts
    have hlength : cuts.flatten.length = pieces.flatten.length := by
      rw [hcuts, length_cryptFrom]
    constructor
    · rw [cryptPieces_eq, hlength, if_neg hfits, hcuts, cryptFrom_cryptFrom]
    · apply List.flatten_splitLengths
      rw [← hlength, List.length_flatten]

/-- `FakeChaCha20`. -/
abbrev chaCha20 (w : Nat) (overflowChecks : Bool) : StreamCipher σ :=
  asStreamCipher w overflowChecks 32 12

/-- Three bytes, encrypted in two pieces and decrypted in two others. -/
theorem chaCha20_in_pieces :
    ∃ encrypted : List (List UInt8),
      (chaCha20 64 true).cryptPieces (.tabulate _ fun _ => 7) (.tabulate _ fun _ => 9)
        [[1, 2], [3]] = (pure encrypted : Exec Unit _) ∧
      (chaCha20 64 true).cryptPieces (.tabulate _ fun _ => 7) (.tabulate _ fun _ => 9)
        [encrypted.flatten.take 1, encrypted.flatten.drop 1] =
          (pure [[1], [2, 3]] : Exec Unit _) := by
  obtain ⟨hencrypt, -, hdecrypt⟩ := @crypts_in_any_pieces Unit 32 12 64 true
    (.tabulate _ fun _ => 7) (.tabulate _ fun _ => 9)
  have hpieces := hencrypt [[1, 2], [3]]
  rw [if_neg (by decide)] at hpieces
  refine ⟨_, hpieces, (hdecrypt [[1, 2], [3]] _ _ () () (congrFun hpieces ()) ?_).1⟩
  rw [List.flatten_cons, List.flatten_singleton, List.take_append_drop]

end FakeCipher

/-! ## `FakeKem` -/

namespace FakeKem

/-- `impl Kem for FakeKem<EK, CT, SS>`. -/
abbrev asKem (EK CT SS : Nat) : Kem σ where
  encapsulationKeySize := .len EK
  decapsulationKeySize := .len EK
  ciphertextSize := .len CT
  sharedSecretSize := .len SS
  generate R rng := do
    let (dk, rng) ← R.random (.len EK) rng
    return ((dk, dk), rng)
  encapsulate R ek rng := do
    let (ss, rng) ← R.random (.len SS) rng
    let ct ← Array.fromFn Array.noDrop (.len CT) fun i => do
      if i < SS then return (← ss.index i) ^^^ (← ek.index i) else return 0
    return ((ct, ss), rng)
  decapsulate dk ct :=
    Array.fromFn Array.noDrop (.len SS) fun i => do return (← ct.index i) ^^^ (← dk.index i)

variable {ek : Array UInt8 (.len EK)} {ss : Array UInt8 (.len SS)}

/-- Byte `i` of the ciphertext. -/
def ciphertextByte (ek : Array UInt8 (.len EK)) (ss : Array UInt8 (.len SS)) (i : Nat) : UInt8 :=
  if i < SS then ss.flat[i]?.getD 0 ^^^ ek.flat[i]?.getD 0 else 0

theorem index_of_lt {n i : Nat} (a : Array UInt8 (.len n)) (hi : i < n) :
    (a.index i : Exec σ UInt8) = pure (a.flat[i]?.getD 0) := by
  rw [Array.index_eq, List.getElem?_eq_getElem (by simpa using hi)]
  rfl

theorem index_of_ge {n i : Nat} (a : Array UInt8 (.len n)) (hi : n ≤ i) :
    (a.index i : Exec σ UInt8) = Exec.panic := by
  rw [Array.index_eq, List.getElem?_eq_none (by simpa using hi)]
  rfl

theorem ciphertext_eq (h : min CT SS ≤ EK) (ek : Array UInt8 (.len EK))
    (ss : Array UInt8 (.len SS)) :
    Array.fromFn Array.noDrop (.len CT) (fun i => do
      if i < SS then return (← ss.index i) ^^^ (← ek.index i) else return 0) =
      (pure (.tabulate (.len CT) (ciphertextByte ek ss)) : Exec σ _) := by
  apply Array.fromFn_pure
  intro i hi
  rw [Size.count_len] at hi
  unfold ciphertextByte
  split
  · rw [index_of_lt ss ‹_›, pure_bind, index_of_lt ek (by omega), pure_bind]
  · rfl

/-- A key that is too short is indexed out of bounds. -/
theorem ciphertext_panic (h : EK < min CT SS) (ek : Array UInt8 (.len EK))
    (ss : Array UInt8 (.len SS)) :
    Array.fromFn Array.noDrop (.len CT) (fun i => do
      if i < SS then return (← ss.index i) ^^^ (← ek.index i) else return 0) =
      (Exec.panic : Exec σ _) := by
  apply Array.fromFn_panic (k := EK) (g := ciphertextByte ek ss)
  · rw [Size.count_len]
    omega
  · intro i hi
    rw [if_pos (by omega), index_of_lt ss (by omega), pure_bind, index_of_lt ek hi, pure_bind,
      ciphertextByte, if_pos (by omega)]
  · rw [if_pos (by omega), index_of_lt ss (by omega), pure_bind, index_of_ge ek (Nat.le_refl _)]
    rfl

/-- Decapsulation undoes encapsulation. -/
theorem decapsulate_ciphertext (hEK : SS ≤ EK) (hCT : SS ≤ CT) (ek : Array UInt8 (.len EK))
    (ss : Array UInt8 (.len SS)) :
    ((asKem EK CT SS : Kem σ).decapsulate ek (.tabulate (.len CT) (ciphertextByte ek ss))) =
      pure ss := by
  have hdecapsulate : (asKem EK CT SS : Kem σ).decapsulate ek
      (.tabulate (.len CT) (ciphertextByte ek ss)) =
      pure (.tabulate (.len SS) fun i => ss.flat[i]?.getD 0) := by
    apply Array.fromFn_pure
    intro i hi
    rw [Size.count_len] at hi
    rw [index_of_lt _ (by omega), pure_bind, index_of_lt ek (by omega), pure_bind,
      Array.flat_tabulate, List.getElem?_map, List.getElem?_range (by simp; omega),
      Option.map_some, Option.getD_some, ciphertextByte, if_pos hi, UInt8.xor_assoc,
      UInt8.xor_self, UInt8.xor_zero]
  rw [hdecapsulate, Array.tabulate_getD]

/-- A secret that is longer than the key or the ciphertext is indexed out of bounds. -/
theorem decapsulate_panic (h : min CT EK < SS) (dk : Array UInt8 (.len EK))
    (ct : Array UInt8 (.len CT)) :
    (asKem EK CT SS : Kem σ).decapsulate dk ct = Exec.panic := by
  apply Array.fromFn_panic (k := min CT EK)
    (g := fun i => ct.flat[i]?.getD 0 ^^^ dk.flat[i]?.getD 0)
  · exact h
  · intro i hi
    rw [index_of_lt ct (by omega), pure_bind, index_of_lt dk (by omega), pure_bind]
  · by_cases hCT : CT ≤ EK
    · rw [Nat.min_eq_left hCT, index_of_ge ct (Nat.le_refl _)]
      rfl
    · rw [Nat.min_eq_right (by omega), index_of_lt ct (by omega), pure_bind,
        index_of_ge dk (Nat.le_refl _)]
      rfl

end FakeKem

/-! ## `FakeRng` -/

/-- `FakeRng`. -/
structure FakeRng where
  counter : UInt8
  deriving DecidableEq, Repr

namespace FakeRng

/-- The body of the loop of `FakeRng::fill_bytes`. -/
def step (self : FakeRng) (_ : UInt8) : Exec σ (UInt8 × FakeRng) := do
  let self : FakeRng := { counter := self.counter + 1 }
  return (self.counter, self)

/-- `impl Rng for FakeRng`. -/
abbrev asRng : Rng σ where
  State := FakeRng
  fillBytes self buf := do
    let (buf, self) ← forMut step self buf
    return (buf, self)

end FakeRng

end ConstArray
