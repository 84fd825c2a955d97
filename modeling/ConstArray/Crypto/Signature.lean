import ConstArray.Crypto.Fake
import Mathlib.Data.Nat.Digits.Lemmas

/-! # Signatures

A scheme signs a hash of a fixed size, so it goes with every digest of that output size. The
sizes in a signature and in an expanded seed are related to flat ones by proofs.
-/

namespace ConstArray

open Foundation

variable {w : Nat} {overflowChecks : Bool} {σ : Type}

/-- The trait `PrehashSignature`, for one `PrehashSize`. -/
structure PrehashSignature (σ : Type) (P : ConcreteSize) where
  signingKeySize : ConcreteSize
  verifyingKeySize : ConcreteSize
  signatureSize : ConcreteSize
  verifyingKey : Array UInt8 signingKeySize → Exec σ (Array UInt8 verifyingKeySize)
  signPrehash : Array UInt8 signingKeySize → Array UInt8 P → Exec σ (Array UInt8 signatureSize)
  verifyPrehash : Array UInt8 verifyingKeySize → Array UInt8 P → Array UInt8 signatureSize →
    Exec σ (Except Error Unit)

namespace PrehashSignature

variable {P : ConcreteSize}

/-- `SigningKey<S>`. -/
abbrev SigningKey (S : PrehashSignature σ P) : Type := Array UInt8 S.signingKeySize

/-- `VerifyingKey<S>`. -/
abbrev VerifyingKey (S : PrehashSignature σ P) : Type := Array UInt8 S.verifyingKeySize

/-- `Signature<S>`. -/
abbrev Signature (S : PrehashSignature σ P) : Type := Array UInt8 S.signatureSize

/-- A scheme that signs each hash with one signature, accepts only that one, and signs no
two hashes alike. -/
structure Unique (S : PrehashSignature σ P) where
  key : S.SigningKey → S.VerifyingKey
  signature : S.SigningKey → Array UInt8 P → S.Signature
  signature_injective : ∀ sk, Function.Injective (signature sk)
  verifyingKey_eq : ∀ sk, S.verifyingKey sk = pure (key sk)
  signPrehash_eq : ∀ sk prehash, S.signPrehash sk prehash = pure (signature sk prehash)
  verifyPrehash_eq : ∀ sk prehash sig, S.verifyPrehash (key sk) prehash sig =
    pure (if signature sk prehash = sig then .ok () else .error ⟨⟩)

variable (D : Digest w σ) (S : PrehashSignature σ D.outputSize)

/-- `sign`. -/
def sign (sk : S.SigningKey) (msg : List UInt8) : Exec σ S.Signature := do
  S.signPrehash sk (← D.digest msg)

/-- `verify`. -/
def verify (vk : S.VerifyingKey) (msg : List UInt8) (sig : S.Signature) :
    Exec σ (Except Error Unit) := do
  S.verifyPrehash vk (← D.digest msg) sig

variable {D S}

theorem verify_eq (h : D.Streaming) (hS : S.Unique) (sk : S.SigningKey) (msg : List UInt8)
    (sig : S.Signature) : ∃ r, verify D S (hS.key sk) msg sig = pure r ∧
      (r = .ok () ↔ hS.signature sk (h.hash msg) = sig) := by
  refine ⟨_, by rw [verify, h.digest_eq, pure_bind, hS.verifyPrehash_eq], ?_⟩
  split
  next heq => exact iff_of_true rfl heq
  next hne => exact iff_of_false nofun hne

theorem accepts_same_hash (h : D.Streaming) (hS : S.Unique) (sk : S.SigningKey)
    (msg : List UInt8) : ∃ vk sig, S.verifyingKey sk = pure vk ∧ sign D S sk msg = pure sig ∧
      (∀ sig', ∃ r, verify D S vk msg sig' = pure r ∧ (r = .ok () ↔ sig = sig')) ∧
      ∀ msg', ∃ r, verify D S vk msg' sig = pure r ∧
        (r = .ok () ↔ h.hash msg = h.hash msg') := by
  refine ⟨hS.key sk, hS.signature sk (h.hash msg), hS.verifyingKey_eq sk, ?_,
    verify_eq h hS sk msg, fun msg' => ?_⟩
  · rw [sign, h.digest_eq, pure_bind, hS.signPrehash_eq]
  · obtain ⟨r, hverify, hr⟩ := verify_eq h hS sk msg' (hS.signature sk (h.hash msg))
    exact ⟨r, hverify, hr.trans ((hS.signature_injective sk).eq_iff.trans eq_comm)⟩

end PrehashSignature

/-! ## `FakeEcdsaP256` -/

namespace FakeEcdsaP256

abbrev Scalar : ConcreteSize := .len 32

abbrev RS : ConcreteSize := .sum Scalar Scalar

/-- `same_len!(RS, Len<64>)`. -/
def rsLen : SameLen.Derivation 64 RS (.len 64) :=
  .sameLen! (show SameLen.sameLen! 64 RS (.len 64) = some ⟨⟩ from rfl)

/-- `same_len!(Len<64>, RS)`. -/
def lenRs : SameLen.Derivation 64 (.len 64) RS :=
  .sameLen! (show SameLen.sameLen! 64 (.len 64) RS = some ⟨⟩ from rfl)

/-- `impl PrehashSignature for FakeEcdsaP256`. Both comparisons are always made. -/
abbrev asPrehashSignature : PrehashSignature σ (.len 32) where
  signingKeySize := Scalar
  verifyingKeySize := Scalar
  signatureSize := .len 64
  verifyingKey sk := pure sk
  signPrehash sk prehash := do
    let r ← sk.zipWith Array.noDrop (fun a b => pure (a ^^^ b)) prehash
    let rs ← Exec.ofOption (r.concat prehash)
    Exec.ofOption (rs.cast rsLen.proof)
  verifyPrehash vk prehash sig := do
    let rs ← Exec.ofOption (sig.cast lenRs.proof)
    let (r, s) ← Exec.ofOption rs.parts
    let expectedR ← vk.zipWith Array.noDrop (fun a b => pure (a ^^^ b)) prehash
    let first ← ctEq r expectedR
    let second ← ctEq s prehash
    if first && second then return .ok () else return .error ⟨⟩

theorem count_rs : RS.count = (.len 64 : ConcreteSize).count := rfl

/-- `(sk ^ prehash) || prehash`. -/
def signature (sk prehash : Array UInt8 Scalar) : Array UInt8 (.len 64) :=
  ((sk.zipValues (fun a b => a ^^^ b) prehash).append prehash).resize count_rs

theorem flat_signature (sk prehash : Array UInt8 Scalar) :
    (signature sk prehash).flat =
      (sk.zipValues (fun a b => a ^^^ b) prehash).flat ++ prehash.flat := by
  rw [signature, Array.flat_resize, Array.flat_append]

theorem signature_injective (sk : Array UInt8 Scalar) :
    Function.Injective (signature sk) := by
  intro p q hpq
  have hflat := congrArg Array.flat hpq
  rw [flat_signature, flat_signature] at hflat
  exact Array.ext_flat (List.append_inj_right' hflat (by simp))

theorem verifyPrehash_eq (sk prehash : Array UInt8 Scalar) (sig : Array UInt8 (.len 64)) :
    (asPrehashSignature : PrehashSignature σ _).verifyPrehash sk prehash sig =
      pure (if signature sk prehash = sig then .ok () else .error ⟨⟩) := by
  have hsig : signature sk prehash = sig ↔
      (sig.resize count_rs.symm).left = sk.zipValues (fun a b => a ^^^ b) prehash ∧
        (sig.resize count_rs.symm).right = prehash := by
    constructor
    · rintro rfl
      constructor
      · ext1
        rw [Array.flat_left, Array.flat_resize, flat_signature]
        exact List.take_left' (by simp)
      · ext1
        rw [Array.flat_right, Array.flat_resize, flat_signature]
        exact List.drop_left' (by simp)
    · rintro ⟨hr, hs⟩
      ext1
      rw [flat_signature, ← hr, ← hs, ← Array.flat_append, Array.append_left_right,
        Array.flat_resize]
  simp only [Array.cast_eq_resize _ count_rs.symm, Array.parts_eq_halves, Exec.ofOption_some,
    Array.zipWith_pure Array.noDrop fun _ _ => rfl, pure_bind, ctEq_eq, hsig]
  by_cases heq : (sig.resize count_rs.symm).left = sk.zipValues (fun a b => a ^^^ b) prehash ∧
      (sig.resize count_rs.symm).right = prehash
  · simp [heq]
  · rw [if_neg heq, if_neg (by simpa using heq)]

def unique : (asPrehashSignature : PrehashSignature σ (.len 32)).Unique where
  key sk := sk
  signature := signature
  signature_injective := signature_injective
  verifyingKey_eq sk := rfl
  signPrehash_eq sk prehash := by
    simp only [Array.zipWith_pure Array.noDrop fun _ _ => rfl, pure_bind, Array.concat_eq_append,
      Exec.ofOption_some, Array.cast_eq_resize _ count_rs]
    rfl
  verifyPrehash_eq := verifyPrehash_eq

/-- Hash-then-sign, with every digest that streams and every scheme like this one: a message
has exactly one signature that is accepted, and it is accepted for exactly the messages
with the same hash. -/
theorem hash_then_sign_exact :
    Nonempty (asPrehashSignature : PrehashSignature σ (.len 32)).Unique ∧
    ∀ (D : Digest w σ) (S : PrehashSignature σ D.outputSize) (h : D.Streaming) (_ : S.Unique)
      (sk : S.SigningKey) (msg : List UInt8), ∃ vk sig, S.verifyingKey sk = pure vk ∧
        PrehashSignature.sign D S sk msg = pure sig ∧
        (∀ sig', ∃ r, PrehashSignature.verify D S vk msg sig' = pure r ∧
          (r = .ok () ↔ sig = sig')) ∧
        ∀ msg', ∃ r, PrehashSignature.verify D S vk msg' sig = pure r ∧
          (r = .ok () ↔ h.hash msg = h.hash msg') :=
  ⟨⟨unique⟩, fun _ _ h hS => PrehashSignature.accepts_same_hash h hS⟩

/-- `FakeEcdsaP256` with `FakeSha256`: the signature is accepted, another one is not. -/
theorem signs_with_fake_sha256 : ∃ vk sig,
    (asPrehashSignature (σ := Unit)).verifyingKey (.tabulate _ fun i => .ofNat i) = pure vk ∧
    PrehashSignature.sign (FakeDigest.sha256 true) asPrehashSignature
      (.tabulate _ fun i => .ofNat i) [1, 2] = (pure sig : Exec Unit _) ∧
    ∀ sig', ∃ r, PrehashSignature.verify (FakeDigest.sha256 true) asPrehashSignature vk [1, 2]
      sig' = (pure r : Exec Unit _) ∧ (r = .ok () ↔ sig = sig') := by
  obtain ⟨vk, sig, hvk, hsig, hverify, -⟩ := (@hash_then_sign_exact 64 Unit).2
    (FakeDigest.sha256 true) asPrehashSignature FakeDigest.sha256Streaming unique
    (.tabulate _ fun i => .ofNat i) [1, 2]
  exact ⟨vk, sig, hvk, hsig, hverify⟩

end FakeEcdsaP256

/-! ## Seed expansion -/

/-- `a[i] = f(a[i])`, in bounds only. -/
def Array.modify {S : ConcreteSize} (a : Array UInt8 S) (i : Nat) (f : UInt8 → UInt8) :
    Exec σ (Array UInt8 S) :=
  if i < S.count then pure (.ofList S (a.flat.modify i f) (by simp)) else Exec.panic

theorem Array.modify_of_lt {S : ConcreteSize} (a : Array UInt8 S) {i : Nat} (f : UInt8 → UInt8)
    (hi : i < S.count) :
    (a.modify i f : Exec σ _) = pure (.ofList S (a.flat.modify i f) (by simp)) :=
  if_pos hi

/-- `ExpandedSeed`, with the field `prefix` as `seedPrefix`. -/
structure ExpandedSeed where
  scalar : Array UInt8 (.len 32)
  seedPrefix : Array UInt8 (.len 32)

namespace ExpandedSeed

abbrev Halves : ConcreteSize := .sum (.len 32) (.len 32)

variable (D : Digest w σ)

/-- `expand_seed`. -/
def expandSeed (seed : Array UInt8 (.len 32)) (proof : SameLen D.outputSize Halves) :
    Exec σ ExpandedSeed := do
  let halves ← Exec.ofOption ((← D.digest seed.flat).cast proof)
  let (scalar, seedPrefix) ← Exec.ofOption halves.parts
  let scalar ← scalar.modify 0 (· &&& 248)
  let scalar ← scalar.modify 31 (· &&& 127)
  let scalar ← scalar.modify 31 (· ||| 64)
  return { scalar, seedPrefix }

/-- `try_expand_seed`. The outer option is the evaluation of both lengths. -/
def tryExpandSeed (seed : Array UInt8 (.len 32)) : Option (Exec σ (Option ExpandedSeed)) := do
  match ← SameLen.tryNew w D.outputSize Halves with
  | some proof => return some <$> expandSeed D seed proof
  | none => return pure none

/-- The number with the given bytes, lowest first. -/
def littleEndian (bytes : List UInt8) : Nat := Nat.ofDigits 256 (bytes.map UInt8.toNat)

/-- The bytes of the first half, clamped. -/
def clamp (bytes : List UInt8) : List UInt8 :=
  ((bytes.modify 0 (· &&& 248)).modify 31 (· &&& 127)).modify 31 (· ||| 64)

theorem toNat_and_248_mod (b : UInt8) : (b &&& 248).toNat % 8 = 0 := by
  rw [UInt8.toNat_and, show 8 = 2 ^ 3 from rfl, Nat.and_mod_two_pow]
  exact Nat.and_zero _

theorem le_toNat_or_64 (b : UInt8) : 64 ≤ (b &&& 127 ||| 64).toNat := by
  rw [UInt8.toNat_or]
  exact Nat.right_le_or

theorem toNat_or_64_lt (b : UInt8) : (b &&& 127 ||| 64).toNat < 128 := by
  rw [UInt8.toNat_or, UInt8.toNat_and]
  exact Nat.or_lt_two_pow (n := 7) (Nat.and_lt_two_pow _ (by decide)) (by decide)

/-- A clamped scalar is a multiple of 8 whose highest bit is bit 254. -/
theorem littleEndian_clamp {bytes : List UInt8} (h : bytes.length = 32) :
    8 ∣ littleEndian (clamp bytes) ∧ 2 ^ 254 ≤ littleEndian (clamp bytes) ∧
      littleEndian (clamp bytes) < 2 ^ 255 := by
  obtain ⟨first, rest, rfl⟩ := List.exists_cons_of_length_eq_add_one h
  obtain ⟨middle, last, rfl⟩ : ∃ middle last, rest = middle ++ [last] :=
    ⟨_, _, (List.dropLast_append_getLast (by rintro rfl; simp at h)).symm⟩
  have hmiddle : middle.length = 30 := by simpa using h
  have hmodify (f : UInt8 → UInt8) (x y : UInt8) :
      (x :: (middle ++ [y])).modify 31 f = x :: (middle ++ [f y]) := by
    rw [List.modify_succ_cons, List.modify_eq_take_cons_drop (by simp [hmiddle])]
    simp [hmiddle]
  have hclamp : clamp (first :: (middle ++ [last])) =
      (first &&& 248) :: (middle ++ [last &&& 127 ||| 64]) := by
    rw [clamp, List.modify_zero_cons, hmodify, hmodify]
  have hvalue : littleEndian (clamp (first :: (middle ++ [last]))) = (first &&& 248).toNat +
      256 * (littleEndian middle + 256 ^ 30 * (last &&& 127 ||| 64).toNat) := by
    rw [hclamp, littleEndian, List.map_cons, Nat.ofDigits_cons, List.map_append,
      Nat.ofDigits_append, List.length_map, hmiddle, List.map_singleton, Nat.ofDigits_singleton,
      littleEndian]
  have hlow : littleEndian middle < 256 ^ 30 := by
    have hlt := Nat.ofDigits_lt_base_pow_length (b := 256) (l := middle.map UInt8.toNat)
      (by decide) (by simpa using fun x _ => x.toNat_lt)
    rwa [List.length_map, hmiddle] at hlt
  have hfirst := toNat_and_248_mod first
  have hbyte := (first &&& 248).toNat_lt
  have hge := le_toNat_or_64 last
  have hlt := toNat_or_64_lt last
  rw [hvalue]
  refine ⟨?_, ?_, ?_⟩
  · omega
  · omega
  · omega

variable {D}

theorem expandSeed_eq (h : D.Streaming) (seed : Array UInt8 (.len 32))
    (proof : SameLen D.outputSize Halves) (hlen : D.outputSize.count = 64) :
    ∃ e, expandSeed D seed proof = pure e ∧
      e.scalar.flat = clamp ((h.hash seed.flat).flat.take 32) ∧
      e.seedPrefix.flat = (h.hash seed.flat).flat.drop 32 := by
  have hcount : D.outputSize.count = Halves.count := hlen
  rw [expandSeed, h.digest_eq, pure_bind, Array.cast_eq_resize _ hcount, Exec.ofOption_some,
    pure_bind, Array.parts_eq_halves, Exec.ofOption_some, pure_bind]
  dsimp only
  rw [Array.modify_of_lt _ _ (by decide), pure_bind, Array.modify_of_lt _ _ (by decide), pure_bind,
    Array.modify_of_lt _ _ (by decide), pure_bind]
  refine ⟨_, rfl, ?_, ?_⟩
  · rw [Array.flat_ofList, Array.flat_ofList, Array.flat_ofList, Array.flat_left,
      Array.flat_resize]
    rfl
  · rw [Array.flat_right, Array.flat_resize]
    rfl

theorem usize?_halves (hw : 6 < w) : Halves.usize? w = some 64 := by
  have hpow : 2 ^ 7 ≤ 2 ^ w := Nat.pow_le_pow_right (by decide) hw
  simp only [Size.usize?, literal, checkedAdd, Option.bind_eq_bind]
  rw [if_pos (by omega), Option.bind_some, Option.bind_some, if_pos (by omega)]

/-- Whatever proof the halves of a digest output are split with, the scalar is clamped and the
other half is not touched. The checked variant returns a seed if and only if the output
has 64 bytes. -/
theorem expands_clamped (h : D.Streaming) (hw : 6 < w) (seed : Array UInt8 (.len 32)) :
    (∀ d : SameLen.Derivation w D.outputSize Halves, ∃ e, expandSeed D seed d.proof = pure e ∧
      e.scalar.flat = clamp ((h.hash seed.flat).flat.take 32) ∧
      e.seedPrefix.flat = (h.hash seed.flat).flat.drop 32 ∧
      8 ∣ littleEndian e.scalar.flat ∧ 2 ^ 254 ≤ littleEndian e.scalar.flat ∧
      littleEndian e.scalar.flat < 2 ^ 255) ∧
    ∀ n, D.outputSize.usize? w = some n → ∃ r, tryExpandSeed D seed = some (pure r) ∧
      (r.isSome ↔ n = 64) ∧
      ∀ e ∈ r, ∀ d : SameLen.Derivation w D.outputSize Halves,
        expandSeed D seed d.proof = pure e := by
  constructor
  · intro d
    have hlen : D.outputSize.count = 64 := d.holds Empty.elim
    obtain ⟨e, he, hscalar, hprefix⟩ := expandSeed_eq h seed d.proof hlen
    refine ⟨e, he, hscalar, hprefix, ?_⟩
    rw [hscalar]
    exact littleEndian_clamp (by simp [hlen])
  · intro n hn
    by_cases heq : n = 64
    · have hlen : D.outputSize.count = 64 := (Size.length_of_usize? hn Empty.elim).1.trans heq
      obtain ⟨e, he, -⟩ := expandSeed_eq h seed ⟨⟩ hlen
      refine ⟨some e, ?_, by simp [heq], ?_⟩
      · simp [tryExpandSeed, SameLen.tryNew, hn, usize?_halves hw, heq, he]
      · rintro _ ⟨⟩ d
        exact he
    · refine ⟨none, ?_, by simp [heq], by simp⟩
      simp [tryExpandSeed, SameLen.tryNew, hn, usize?_halves hw, heq]

/-- The seed of `main`, with a digest of 64 bytes. -/
theorem expands_with_fake_sha512 : ∃ r,
    tryExpandSeed (FakeDigest.sha512 (σ := Unit) true) (.tabulate _ fun _ => 1) = some (pure r) ∧
      r.isSome := by
  obtain ⟨r, hr, hsome, -⟩ := (@expands_clamped 64 Unit (FakeDigest.sha512 true)
    FakeDigest.sha512Streaming (by decide) (.tabulate _ fun _ => 1)).2 64 rfl
  exact ⟨r, hr, hsome.mpr rfl⟩

end ExpandedSeed

end ConstArray
