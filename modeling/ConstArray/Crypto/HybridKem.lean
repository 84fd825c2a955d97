import ConstArray.Crypto.Fake
import ConstArray.Foundation.Postcondition

/-! # Hybrid KEMs

`Hybrid<K1, K2, D>` runs two KEMs and hashes both secrets together with what was sent.
It is a KEM again, so hybrids nest. Both sides of every nesting agree on the secret, and
what is sent is what the components send, in order.
-/

namespace ConstArray

open Foundation

variable {w : Nat} {σ : Type}

namespace Kem

/-- Whatever key pair and whatever encapsulation under it are returned, decapsulation
returns the encapsulated secret. The sources of randomness are arbitrary. -/
def Agrees (K : Kem σ) : Prop :=
  ∀ (R R' : Rng σ) (rng : R.State), (K.generate R rng).ReturnsOnly fun r =>
    ∀ rng' : R'.State, (K.encapsulate R' r.1.2 rng').ReturnsOnly fun r' =>
      K.decapsulate r.1.1 r'.1.1 = pure r'.1.2

/-- `exchange`. -/
def exchange (K : Kem σ) (R : Rng σ) (rng : R.State) : Exec σ (K.SharedSecret × R.State) := do
  let ((dk, ek), rng) ← K.generate R rng
  let ((ct, ssSender), rng) ← K.encapsulate R ek rng
  let ssReceiver ← K.decapsulate dk ct
  if ssSender ≠ ssReceiver then Exec.panic
  return (ssSender, rng)

/-- The assertion of `exchange` holds. -/
theorem Agrees.exchange_eq {K : Kem σ} (h : K.Agrees) (R : Rng σ) (rng : R.State) :
    K.exchange R rng = do
      let ((_, ek), rng) ← K.generate R rng
      let ((_, ss), rng) ← K.encapsulate R ek rng
      return (ss, rng) := by
  apply (h R R rng).bind_congr
  rintro ⟨⟨dk, ek⟩, rng⟩ hkeys
  apply (hkeys rng).bind_congr
  rintro ⟨⟨ct, ss⟩, rng⟩ hss
  dsimp only at hss ⊢
  rw [hss, pure_bind, if_neg (by simp)]

end Kem

namespace Hybrid

/-- `b"hybrid kem"`. -/
def label : List UInt8 := "hybrid kem".toUTF8.toList

variable (K1 K2 : Kem σ) (D : Digest w σ)

variable {K1 K2} in
/-- `Hybrid::combine`. -/
def combine (ss1 : K1.SharedSecret) (ss2 : K2.SharedSecret) (ct1 : K1.Ciphertext)
    (ct2 : K2.Ciphertext) (ek2 : K2.EncapsulationKey) : Exec σ D.Output := do
  let d ← D.chain (← D.default) label
  let d ← D.chain d ss1.flat
  let d ← D.chain d ss2.flat
  let d ← D.chain d ct1.flat
  let d ← D.chain d ct2.flat
  let d ← D.chain d ek2.flat
  D.finalize d

/-- `impl Kem for Hybrid<K1, K2, D>`. -/
abbrev asKem : Kem σ where
  encapsulationKeySize := .sum K1.encapsulationKeySize K2.encapsulationKeySize
  decapsulationKeySize :=
    .sum (.sum K1.decapsulationKeySize K2.decapsulationKeySize) K2.encapsulationKeySize
  ciphertextSize := .sum K1.ciphertextSize K2.ciphertextSize
  sharedSecretSize := D.outputSize
  generate R rng := do
    let ((dk1, ek1), rng) ← K1.generate R rng
    let ((dk2, ek2), rng) ← K2.generate R rng
    let dks ← Exec.ofOption (dk1.concat dk2)
    let dk ← Exec.ofOption (dks.concat (← ek2.clone Array.noDrop pure))
    return ((dk, ← Exec.ofOption (ek1.concat ek2)), rng)
  encapsulate R ek rng := do
    let (ek1, ek2) ← Exec.ofOption ek.parts
    let ((ct1, ss1), rng) ← K1.encapsulate R ek1 rng
    let ((ct2, ss2), rng) ← K2.encapsulate R ek2 rng
    let ss ← combine D ss1 ss2 ct1 ct2 ek2
    return ((← Exec.ofOption (ct1.concat ct2), ss), rng)
  decapsulate dk ct := do
    let (dks, ek2) ← Exec.ofOption dk.parts
    let (dk1, dk2) ← Exec.ofOption dks.parts
    let (ct1, ct2) ← Exec.ofOption ct.parts
    let ss1 ← K1.decapsulate dk1 ct1
    let ss2 ← K2.decapsulate dk2 ct2
    combine D ss1 ss2 ct1 ct2 ek2

variable {K1 K2 D}

theorem generate_eq (R : Rng σ) (rng : R.State) :
    (asKem K1 K2 D).generate R rng = do
      let ((dk1, ek1), rng) ← K1.generate R rng
      let ((dk2, ek2), rng) ← K2.generate R rng
      return (((dk1.append dk2).append ek2, ek1.append ek2), rng) := by
  simp only [Array.concat_eq_append, Exec.ofOption_some, Array.clone_pure, pure_bind]

theorem encapsulate_eq (R : Rng σ) (ek : (asKem K1 K2 D).EncapsulationKey) (rng : R.State) :
    (asKem K1 K2 D).encapsulate R ek rng = do
      let ((ct1, ss1), rng) ← K1.encapsulate R ek.left rng
      let ((ct2, ss2), rng) ← K2.encapsulate R ek.right rng
      let ss ← combine D ss1 ss2 ct1 ct2 ek.right
      return ((ct1.append ct2, ss), rng) := by
  simp only [Array.parts_eq_halves, Array.concat_eq_append, Exec.ofOption_some, pure_bind]

theorem decapsulate_eq (dk : (asKem K1 K2 D).DecapsulationKey)
    (ct : (asKem K1 K2 D).Ciphertext) :
    (asKem K1 K2 D).decapsulate dk ct = (do
      let ss1 ← K1.decapsulate dk.left.left ct.left
      let ss2 ← K2.decapsulate dk.left.right ct.right
      combine D ss1 ss2 ct.left ct.right dk.right) := by
  simp only [Array.parts_eq_halves, Exec.ofOption_some, pure_bind]

/-- The secret: the hash of both secrets, both ciphertexts and the second key. -/
theorem combine_eq (h : D.Streaming) (ss1 : K1.SharedSecret) (ss2 : K2.SharedSecret)
    (ct1 : K1.Ciphertext) (ct2 : K2.Ciphertext) (ek2 : K2.EncapsulationKey) :
    combine D ss1 ss2 ct1 ct2 ek2 = pure (h.hash (label ++ (ss1.flat ++ (ss2.flat ++
      (ct1.flat ++ (ct2.flat ++ ek2.flat)))))) := by
  simp only [combine, h.start_eq, h.chain_eq, h.finalize_eq, pure_bind, List.nil_append,
    List.append_assoc]

/-- A hybrid of KEMs that agree agrees. -/
theorem agrees (h1 : K1.Agrees) (h2 : K2.Agrees) (h : D.Streaming) :
    (asKem K1 K2 D).Agrees := by
  intro R R' rng
  rw [generate_eq]
  apply (h1 R R' rng).bind
  rintro ⟨⟨dk1, ek1⟩, rng⟩ hkeys1
  apply (h2 R R' rng).bind
  rintro ⟨⟨dk2, ek2⟩, rng⟩ hkeys2
  refine .pure fun rng' => ?_
  rw [encapsulate_eq]
  dsimp only
  rw [Array.left_append, Array.right_append]
  apply (hkeys1 rng').bind
  rintro ⟨⟨ct1, ss1⟩, rng'⟩ hss1
  apply (hkeys2 rng').bind
  rintro ⟨⟨ct2, ss2⟩, rng'⟩ hss2
  dsimp only at hss1 hss2 ⊢
  rw [combine_eq h, pure_bind]
  refine .pure ?_
  change (asKem K1 K2 D).decapsulate ((dk1.append dk2).append ek2) (ct1.append ct2) = pure _
  rw [decapsulate_eq, Array.left_append, Array.right_append, Array.left_append, Array.right_append,
    Array.left_append, Array.right_append, hss1, pure_bind, hss2, pure_bind, combine_eq h]

end Hybrid

/-! ## Nested hybrids -/

/-- KEMs, combined with digests that stream. -/
inductive KemTree (w : Nat) (σ : Type) where
  | leaf (K : Kem σ)
  | hybrid (t1 t2 : KemTree w σ) (D : Digest w σ) (h : D.Streaming)

namespace KemTree

/-- The nested `Hybrid`. -/
def asKem : KemTree w σ → Kem σ
  | leaf K => K
  | hybrid t1 t2 D _ => Hybrid.asKem t1.asKem t2.asKem D

/-- The components from left to right. -/
def leaves : KemTree w σ → List (Kem σ)
  | leaf K => [K]
  | hybrid t1 t2 _ _ => t1.leaves ++ t2.leaves

theorem agrees (t : KemTree w σ) (hleaves : ∀ K ∈ t.leaves, K.Agrees) : t.asKem.Agrees := by
  induction t with
  | leaf K => exact hleaves K List.mem_cons_self
  | hybrid t1 t2 D h ih1 ih2 =>
      obtain ⟨h1, h2⟩ := List.forall_mem_append.mp hleaves
      exact Hybrid.agrees (ih1 h1) (ih2 h2) h

/-- If both sides of every component agree, both sides of every nesting of hybrids do, for
every source of randomness: an exchange is only generating and encapsulating, and its
assertion never fails. -/
theorem exchange_never_disagrees (t : KemTree w σ) (hleaves : ∀ K ∈ t.leaves, K.Agrees)
    (R : Rng σ) (rng : R.State) :
    t.asKem.exchange R rng = do
      let ((_, ek), rng) ← t.asKem.generate R rng
      let ((_, ss), rng) ← t.asKem.encapsulate R ek rng
      return (ss, rng) :=
  (t.agrees hleaves).exchange_eq R rng

/-- A component with an encapsulation key for it. -/
abbrev KeyedLeaf (σ : Type) : Type 1 := Σ K : Kem σ, K.EncapsulationKey

/-- The components with their parts of the encapsulation key. -/
def keyedLeaves : (t : KemTree w σ) → t.asKem.EncapsulationKey → List (KeyedLeaf σ)
  | leaf K, ek => [⟨K, ek⟩]
  | hybrid t1 t2 _ _, ek =>
      t1.keyedLeaves (Array.left ek) ++ t2.keyedLeaves (Array.right ek)

/-- Generate a key pair of each component in turn, and concatenate the encapsulation
keys. -/
def generateAll (R : Rng σ) : List (Kem σ) → R.State → Exec σ (List UInt8 × R.State)
  | [], rng => pure ([], rng)
  | K :: Ks, rng => do
      let ((_, ek), rng) ← K.generate R rng
      let (eks, rng) ← generateAll R Ks rng
      return (ek.flat ++ eks, rng)

/-- Encapsulate under each key in turn, and concatenate the ciphertexts. -/
def encapsulateAll (R : Rng σ) : List (KeyedLeaf σ) → R.State → Exec σ (List UInt8 × R.State)
  | [], rng => pure ([], rng)
  | ⟨K, ek⟩ :: Ks, rng => do
      let ((ct, _), rng) ← K.encapsulate R ek rng
      let (cts, rng) ← encapsulateAll R Ks rng
      return (ct.flat ++ cts, rng)

theorem generateAll_append (R : Rng σ) (Ks Ls : List (Kem σ)) (rng : R.State) :
    generateAll R (Ks ++ Ls) rng = do
      let (eks, rng) ← generateAll R Ks rng
      let (eks', rng) ← generateAll R Ls rng
      return (eks ++ eks', rng) := by
  induction Ks generalizing rng with
  | nil => simp [generateAll]
  | cons K Ks ih => simp [generateAll, ih]

theorem encapsulateAll_append (R : Rng σ) (Ks Ls : List (KeyedLeaf σ)) (rng : R.State) :
    encapsulateAll R (Ks ++ Ls) rng = do
      let (cts, rng) ← encapsulateAll R Ks rng
      let (cts', rng) ← encapsulateAll R Ls rng
      return (cts ++ cts', rng) := by
  induction Ks generalizing rng with
  | nil => simp [encapsulateAll]
  | cons K Ks ih => simp [encapsulateAll, ih]

/-- What a peer gets to see of a new key pair. -/
def publicPart {K : Kem σ} {R : Rng σ}
    (r : (K.DecapsulationKey × K.EncapsulationKey) × R.State) : List UInt8 × R.State :=
  (r.1.2.flat, r.2)

/-- What a peer gets to see of an encapsulation. -/
def sentPart {K : Kem σ} {R : Rng σ} (r : (K.Ciphertext × K.SharedSecret) × R.State) :
    List UInt8 × R.State :=
  (r.1.1.flat, r.2)

theorem generate_leaves (t : KemTree w σ) (R : Rng σ) (rng : R.State) :
    publicPart <$> t.asKem.generate R rng = generateAll R t.leaves rng := by
  induction t generalizing rng with
  | leaf K =>
      simp only [leaves, generateAll, pure_bind, List.append_nil]
      exact map_eq_pure_bind _ _
  | hybrid t1 t2 D h ih1 ih2 =>
      rw [leaves, generateAll_append, asKem, Hybrid.generate_eq]
      simp only [← ih1, ← ih2, map_eq_pure_bind, bind_assoc, pure_bind, publicPart,
        Array.flat_append]

theorem encapsulate_leaves (t : KemTree w σ) (R : Rng σ) (ek : t.asKem.EncapsulationKey)
    (rng : R.State) :
    sentPart <$> t.asKem.encapsulate R ek rng = encapsulateAll R (t.keyedLeaves ek) rng := by
  induction t generalizing rng with
  | leaf K =>
      simp only [keyedLeaves, encapsulateAll, pure_bind, List.append_nil]
      exact map_eq_pure_bind _ _
  | hybrid t1 t2 D h ih1 ih2 =>
      change (Hybrid.asKem t1.asKem t2.asKem D).EncapsulationKey at ek
      change sentPart <$> (Hybrid.asKem t1.asKem t2.asKem D).encapsulate R ek rng =
        encapsulateAll R (t1.keyedLeaves ek.left ++ t2.keyedLeaves ek.right) rng
      rw [encapsulateAll_append, Hybrid.encapsulate_eq]
      simp only [← ih1, ← ih2, map_eq_pure_bind, bind_assoc, pure_bind, sentPart,
        Array.flat_append, Hybrid.combine_eq h]

theorem map_fst_keyedLeaves (t : KemTree w σ) (ek : t.asKem.EncapsulationKey) :
    (t.keyedLeaves ek).map Sigma.fst = t.leaves := by
  induction t with
  | leaf K => rfl
  | hybrid t1 t2 D h ih1 ih2 =>
      rw [leaves, ← ih1 (Array.left ek), ← ih2 (Array.right ek)]
      exact List.map_append

theorem flatMap_keyedLeaves (t : KemTree w σ) (ek : t.asKem.EncapsulationKey) :
    (t.keyedLeaves ek).flatMap (fun l => l.2.flat) = ek.flat := by
  induction t with
  | leaf K => exact List.flatMap_singleton _ _
  | hybrid t1 t2 D h ih1 ih2 =>
      change (Hybrid.asKem t1.asKem t2.asKem D).EncapsulationKey at ek
      change (t1.keyedLeaves ek.left ++ t2.keyedLeaves ek.right).flatMap _ = ek.flat
      rw [List.flatMap_append, ih1, ih2, Array.flat_left, Array.flat_right]
      exact List.take_append_drop _ _

/-- However hybrids nest, the key that is published is the keys of the components from left to
right, and what is sent for a key is what each component sends for its part of it, in
the same order and with the same calls. -/
theorem sends_components_in_order (t : KemTree w σ) (R : Rng σ) :
    (∀ rng, publicPart <$> t.asKem.generate R rng = generateAll R t.leaves rng) ∧
    ∀ ek : t.asKem.EncapsulationKey,
      (t.keyedLeaves ek).map Sigma.fst = t.leaves ∧
      (t.keyedLeaves ek).flatMap (fun l => l.2.flat) = ek.flat ∧
      ∀ rng, sentPart <$> t.asKem.encapsulate R ek rng = encapsulateAll R (t.keyedLeaves ek) rng :=
  ⟨t.generate_leaves R, fun ek => ⟨t.map_fst_keyedLeaves ek, t.flatMap_keyedLeaves ek,
    t.encapsulate_leaves R ek⟩⟩

end KemTree

/-! ## `FakeKem` -/

namespace FakeKem

variable {EK CT SS : Nat}

theorem agrees (hEK : SS ≤ EK) (hCT : SS ≤ CT) : (asKem EK CT SS : Kem σ).Agrees := by
  intro R R' rng
  apply (Exec.ReturnsOnly.trivial _).bind
  rintro ⟨dk, rng⟩ -
  refine .pure fun rng' => ?_
  apply (Exec.ReturnsOnly.trivial _).bind
  rintro ⟨ss, rng'⟩ -
  dsimp only
  rw [ciphertext_eq (by omega), pure_bind]
  exact .pure (decapsulate_ciphertext hEK hCT dk ss)

/-- What `FakeRng` returns next. -/
def fakeRandom (S : ConcreteSize) (rng : FakeRng) : Array UInt8 S :=
  .tabulate S fun i => rng.counter + .ofNat (i + 1)

theorem random_eq (S : ConcreteSize) (rng : FakeRng) :
    FakeRng.asRng.random S rng =
      (pure (fakeRandom S rng, { counter := rng.counter + .ofNat S.count }) : Exec σ _) := by
  have hstep : ∀ i < S.count, ∀ b, FakeRng.step (σ := σ) ⟨rng.counter + .ofNat (0 + i)⟩ b =
      pure (rng.counter + .ofNat (0 + i + 1), ⟨rng.counter + .ofNat (0 + i + 1)⟩) := by
    intro i _ b
    rw [UInt8.ofNat_add (0 + i), ← UInt8.add_assoc]
    rfl
  have hloop := forMut_eq (fun i (_ : UInt8) => rng.counter + .ofNat (i + 1))
    (fun i => (⟨rng.counter + .ofNat i⟩ : FakeRng)) hstep
    (Array.tabulate S fun _ => 0).toVector
  simp only [Nat.zero_add] at hloop
  have hstart : rng.counter + .ofNat 0 = rng.counter := UInt8.add_zero _
  rw [hstart] at hloop
  rw [Rng.random, Array.default_pure Array.noDrop, pure_bind]
  dsimp only [FakeRng.asRng]
  rw [hloop, pure_bind, pure_bind]
  refine congrArg (fun a => pure (a, _)) (Array.ext_flat ?_)
  apply List.ext_getElem
  · simp
  · intro i hi hi'
    simp [fakeRandom]

/-- With `FakeRng`, an exchange of `FakeKem` returns if and only if the secret is at most as
long as the key and the ciphertext. Otherwise it panics. -/
theorem exchange_returns_iff (rng : FakeRng) :
    (asKem EK CT SS).exchange FakeRng.asRng rng =
      if SS ≤ EK ∧ SS ≤ CT then
        (pure (fakeRandom (.len SS) { counter := rng.counter + .ofNat EK },
          { counter := rng.counter + .ofNat EK + .ofNat SS }) : Exec σ _)
      else Exec.panic := by
  by_cases hEK : EK < min CT SS
  · rw [if_neg (by omega)]
    simp only [Kem.exchange, random_eq, pure_bind, ciphertext_panic hEK]
    rfl
  · have hct := @ciphertext_eq σ EK CT SS (by omega)
    split
    next hle =>
      rw [(agrees hle.1 hle.2).exchange_eq]
      simp only [random_eq, pure_bind, hct]
      rfl
    next hle =>
      have hdecapsulate := @decapsulate_panic σ EK CT SS (by omega)
      dsimp only [asKem] at hdecapsulate
      simp only [Kem.exchange, random_eq, pure_bind, hct, hdecapsulate]
      rfl

end FakeKem

namespace KemTree

variable {overflowChecks : Bool}

/-- A component `FakeKem<EK, CT, SS>`. -/
def fake (EK CT SS : Nat) : KemTree w σ := .leaf (FakeKem.asKem EK CT SS)

/-- `XWingish`. -/
def xWingish (overflowChecks : Bool) : KemTree 64 σ :=
  .hybrid (fake 1184 1088 32) (fake 32 32 32) (FakeDigest.sha256 overflowChecks)
    FakeDigest.sha256Streaming

/-- `Triple`. -/
def triple (overflowChecks : Bool) : KemTree 64 σ :=
  .hybrid (xWingish overflowChecks) (fake 64 64 64) (FakeDigest.sha512 overflowChecks)
    FakeDigest.sha512Streaming

example : (triple overflowChecks : KemTree 64 σ).asKem.ciphertextSize.count = 1088 + 32 + 64 := rfl

theorem leaves_triple_agree : ∀ K ∈ (triple overflowChecks : KemTree 64 σ).leaves, K.Agrees := by
  have hleaves : (triple overflowChecks : KemTree 64 σ).leaves =
      [FakeKem.asKem 1184 1088 32, FakeKem.asKem 32 32 32, FakeKem.asKem 64 64 64] := rfl
  rw [hleaves, List.forall_mem_cons, List.forall_mem_cons, List.forall_mem_singleton]
  exact ⟨@FakeKem.agrees σ 1184 1088 32 (by decide) (by decide),
    @FakeKem.agrees σ 32 32 32 (by decide) (by decide),
    @FakeKem.agrees σ 64 64 64 (by decide) (by decide)⟩

/-- The exchange of `main` with `Triple`. -/
theorem exchange_of_triple :
    (triple true : KemTree 64 Unit).asKem.exchange FakeRng.asRng ⟨0⟩ = do
      let ((_, ek), rng) ← (triple true).asKem.generate FakeRng.asRng ⟨0⟩
      let ((_, ss), rng) ← (triple true).asKem.encapsulate FakeRng.asRng ek rng
      return (ss, rng) :=
  exchange_never_disagrees (triple true) leaves_triple_agree FakeRng.asRng ⟨0⟩

/-- A hybrid of which one component has keys that are too short for its secret. -/
def shortKeys : KemTree 64 Unit :=
  .hybrid (fake 2 3 3) (fake 1 1 1) (FakeDigest.sha256 true) FakeDigest.sha256Streaming

/-- Its keys are generated in order all the same. -/
theorem sends_short_keys :
    publicPart <$> shortKeys.asKem.generate FakeRng.asRng ⟨0⟩ =
      (pure ([1, 2, 3], ⟨3⟩) : Exec Unit _) := by
  have hleaves : shortKeys.leaves = [FakeKem.asKem 2 3 3, FakeKem.asKem 1 1 1] := rfl
  rw [(sends_components_in_order shortKeys FakeRng.asRng).1, hleaves]
  simp only [generateAll, FakeKem.asKem, FakeKem.random_eq, pure_bind]
  rfl

end KemTree

end ConstArray
