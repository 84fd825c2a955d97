import ConstArray.Crypto.Traits
import ConstArray.Foundation.Digits

/-! # The record channel

`Channel<A>` seals each record under the nonce `iv ^ counter`. It takes nonces from
the counter one at a time, and stops when the counter no longer fits into the
nonce or cannot be incremented. The methods take the channel by `&mut self`: it is a
local of their caller, and keeps its counter when the AEAD panics.
-/

namespace ConstArray

open Foundation

variable {w : Nat} {σ : Type}

/-- `u64::checked_add`. -/
def checkedAddU64 (a b : UInt64) : Option UInt64 :=
  if a.toNat + b.toNat < 2 ^ 64 then some (a + b) else none

/-- `b"record"`. -/
def recordAad : List UInt8 := [0x72, 0x65, 0x63, 0x6f, 0x72, 0x64]

/-- `Channel<A>`. -/
structure Channel (A : Aead σ) where
  aead : A.State
  iv : A.Nonce
  counter : UInt64

namespace Channel

variable {A : Aead σ}

/-- `Channel::new`. -/
def new (key : A.Key) (iv : A.Nonce) : Exec σ (Channel A) := do
  return { aead := ← A.new key, iv, counter := 0 }

/-- `Channel::next_nonce`. -/
def nextNonce : Exec (Channel A × σ) (Except Error A.Nonce) := do
  let self ← Exec.get
  let len := A.nonceSize.count
  if len < 8 ∧ self.counter >>> (8 * len).toUInt64 ≠ 0 then return .error ⟨⟩
  let counter := toBeBytes self.counter
  let padded ← Array.fromFn Array.noDrop A.nonceSize fun i => do
    -- `i < len`, so neither subtraction underflows
    let fromEnd := len - 1 - i
    if fromEnd < 8 then Exec.unwrap counter[7 - fromEnd]? else return 0
  match checkedAddU64 self.counter 1 with
  | none => return .error ⟨⟩
  | some counter =>
      Exec.put { self with counter }
      return .ok (← self.iv.zipWith Array.noDrop (fun a b => pure (a ^^^ b)) padded)

/-- `Channel::send`. The counter has been raised when the AEAD is called. -/
def send {n : Nat} (record : List.Vector UInt8 n) :
    Exec (Channel A × σ) (Except Error A.Tag × List.Vector UInt8 n) := do
  match ← nextNonce with
  | .error e => return (.error e, record)
  | .ok nonce =>
      let self ← Exec.get
      let (record, tag) ← (A.encryptInPlaceDetached self.aead nonce recordAad record).lift
      return (.ok tag, record)

/-- `Channel::receive`. -/
def receive {n : Nat} (record : List.Vector UInt8 n) (tag : A.Tag) :
    Exec (Channel A × σ) (Except Error Unit × List.Vector UInt8 n) := do
  match ← nextNonce with
  | .error e => return (.error e, record)
  | .ok nonce =>
      let self ← Exec.get
      let (record, result) ← (A.decryptInPlaceDetached self.aead nonce recordAad record tag).lift
      return (result, record)

variable {N R : ConcreteSize}

/-- `SealedRecords<A, N, R>`. -/
abbrev SealedRecords (A : Aead σ) (N R : ConcreteSize) : Type :=
  Array UInt8 (.prod N (.sum R A.tagSize))

/-- The body of the loop of `Channel::send_records`. -/
def sendNext (_ : Array UInt8 (.sum R A.tagSize)) (record : Array UInt8 R) :
    Exec (Channel A × σ) (Except Error (Array UInt8 (.sum R A.tagSize))) := do
  match ← nextNonce with
  | .error e => return .error e
  | .ok nonce =>
      let self ← Exec.get
      return .ok (← (A.seal self.aead nonce recordAad record).lift)

/-- `Channel::send_records`. -/
def sendRecords (records : Array UInt8 (.prod N R)) :
    Exec (Channel A × σ) (Except Error (SealedRecords A N R)) := do
  let sealed ← Array.default Array.noDrop N
    (Array.default Array.noDrop (.sum R A.tagSize) (pure 0))
  let chunks ← Exec.ofOption records.intoChunks
  match ← tryForZip sendNext sealed.toVector chunks.flat with
  | .error e => return .error e
  | .ok sealed => return .ok (← Exec.ofOption (Array.ofVector sealed).fromChunks)

/-- The body of the loop of `Channel::receive_records`. -/
def receiveNext (_ : Array UInt8 R) (record : Array UInt8 (.sum R A.tagSize)) :
    Exec (Channel A × σ) (Except Error (Array UInt8 R)) := do
  match ← nextNonce with
  | .error e => return .error e
  | .ok nonce =>
      let self ← Exec.get
      (A.open self.aead nonce recordAad record).lift

/-- `Channel::receive_records`. -/
def receiveRecords (sealed : SealedRecords A N R) :
    Exec (Channel A × σ) (Except Error (Array UInt8 (.prod N R))) := do
  let records ← Array.default Array.noDrop N (Array.default Array.noDrop R (pure 0))
  let chunks ← Exec.ofOption sealed.intoChunks
  match ← tryForZip receiveNext records.toVector chunks.flat with
  | .error e => return .error e
  | .ok records => return .ok (← Exec.ofOption (Array.ofVector records).fromChunks)

/-! ## Nonces -/

/-- The number of records after which a channel has run out of nonces. -/
def limit (A : Aead σ) : Nat :=
  if A.nonceSize.count < 8 then 256 ^ A.nonceSize.count else 2 ^ 64 - 1

/-- The nonce of record `c`: the initialization vector XORed with the counter, which is
big-endian and aligned to the end. -/
def nonceAt (iv : A.Nonce) (c : Nat) : A.Nonce :=
  iv.zipValues (fun a b => a ^^^ b)
    (.tabulate A.nonceSize fun i => .ofNat (digit 256 c (A.nonceSize.count - 1 - i)))

theorem limit_lt (A : Aead σ) : limit A < 2 ^ 64 := by
  unfold limit
  split
  next hlen =>
    have hpow : 256 ^ A.nonceSize.count ≤ 256 ^ 7 := Nat.pow_le_pow_right (by omega) (by omega)
    omega
  next => omega

theorem limit_le_pow (A : Aead σ) : limit A ≤ 256 ^ A.nonceSize.count := by
  unfold limit
  split
  next => exact Nat.le_refl _
  next hlen =>
    have hpow : 256 ^ 8 ≤ 256 ^ A.nonceSize.count := Nat.pow_le_pow_right (by omega) (by omega)
    omega

/-- Counters that fit into the nonce give different nonces. -/
theorem nonceAt_inj {iv : A.Nonce} {c d : Nat} (hc : c < 256 ^ A.nonceSize.count)
    (hd : d < 256 ^ A.nonceSize.count) (h : nonceAt iv c = nonceAt iv d) : c = d := by
  apply eq_of_digit_eq hc hd
  intro i hi
  have hflat := congrArg (fun n : A.Nonce => n.flat[A.nonceSize.count - 1 - i]?) h
  have hj : A.nonceSize.count - 1 - i < A.nonceSize.count := by omega
  have hback : A.nonceSize.count - 1 - (A.nonceSize.count - 1 - i) = i := by omega
  simp only [nonceAt, Array.flat_zipValues, Array.flat_tabulate, List.getElem?_zipWith,
    List.getElem?_map, List.getElem?_range hj, Option.map_some,
    List.getElem?_eq_getElem (l := iv.flat) (show A.nonceSize.count - 1 - i < iv.flat.length by
      simpa using hj), Option.some.injEq, UInt8.xor_right_inj, hback] at hflat
  have hbyte := congrArg UInt8.toNat hflat
  have hlt (n : Nat) : digit 256 n i < 256 := Nat.mod_lt _ (by omega)
  rwa [UInt8.toNat_ofNat', UInt8.toNat_ofNat', Nat.mod_eq_of_lt (hlt c),
    Nat.mod_eq_of_lt (hlt d)] at hbyte

/-- A counter that is shifted away fits into the nonce. -/
theorem shiftRight_ne_zero {x : UInt64} {len : Nat} (hlen : len < 8) :
    x >>> (8 * len).toUInt64 ≠ 0 ↔ 256 ^ len ≤ x.toNat := by
  rw [Ne, ← UInt64.toNat_inj, toNat_shiftRight x hlen, UInt64.toNat_zero, Nat.div_eq_zero_iff]
  have hpos : 0 < 256 ^ len := Nat.pow_pos (by omega)
  omega

/-- The padded counter, byte by byte. -/
theorem padded_byte (x : UInt64) (fromEnd : Nat) :
    (if fromEnd < 8 then Exec.unwrap (toBeBytes x)[7 - fromEnd]? else return 0) =
      (pure (.ofNat (digit 256 x.toNat fromEnd)) : Exec σ UInt8) := by
  split
  next hlt =>
    have hbyte : (x >>> (8 * fromEnd).toUInt64).toUInt8 = .ofNat (digit 256 x.toNat fromEnd) := by
      rw [← toNat_shiftRight_toUInt8 x hlt, UInt8.ofNat_toNat]
    rw [toBeBytes, List.getElem?_map, List.getElem?_range (by omega), Option.map_some,
      Exec.unwrap_some, show 7 - (7 - fromEnd) = fromEnd by omega, hbyte]
  next hge =>
    have hx : x.toNat < 256 ^ 8 := x.toNat_lt
    rw [digit_eq_zero hx (by omega)]
    rfl

/-- `next_nonce` never panics: it takes the nonce of the counter, or fails and leaves the
channel as it is. -/
theorem nextNonce_apply (self : Channel A) (s : σ) :
    nextNonce (self, s) = if self.counter.toNat < limit A then
      .ok (.ok (nonceAt self.iv self.counter.toNat)) ({ self with counter := self.counter + 1 }, s)
      else .ok (.error ⟨⟩) (self, s) := by
  have hpadded := Array.fromFn_pure (σ := Channel A × σ) (S := A.nonceSize) Array.noDrop
    fun i _ => padded_byte self.counter (A.nonceSize.count - 1 - i)
  have hone : (1 : UInt64).toNat = 1 := rfl
  have hcounter := self.counter.toNat_lt
  rw [nextNonce, Exec.bind_of_ok (Exec.get_apply _)]
  dsimp only
  by_cases hguard : A.nonceSize.count < 8 ∧ self.counter >>> (8 * A.nonceSize.count).toUInt64 ≠ 0
  · have hpow := (shiftRight_ne_zero hguard.1).mp hguard.2
    rw [if_pos hguard, limit, if_pos hguard.1, if_neg (by omega)]
    rfl
  · rw [if_neg hguard, hpadded, pure_bind, checkedAddU64, hone]
    by_cases hadd : self.counter.toNat + 1 < 2 ^ 64
    · have hlimit : self.counter.toNat < limit A := by
        unfold limit
        split
        next hlen =>
          rw [not_and, shiftRight_ne_zero hlen] at hguard
          exact Nat.lt_of_not_le (hguard hlen)
        next => omega
      rw [if_pos hadd, if_pos hlimit]
      dsimp only
      rw [Array.zipWith_pure Array.noDrop fun _ _ => rfl]
      rfl
    · have hlimit : ¬ self.counter.toNat < limit A := by
        have hlt := limit_lt A
        unfold limit at hlt ⊢
        split
        next hlen =>
          rw [if_pos hlen] at hlt
          omega
        next => omega
      rw [if_neg hadd, if_neg hlimit]
      rfl

theorem nextNonce_of_lt {self : Channel A} (h : self.counter.toNat < limit A) (s : σ) :
    nextNonce (self, s) = .ok (.ok (nonceAt self.iv self.counter.toNat))
      ({ self with counter := self.counter + 1 }, s) := by
  rw [nextNonce_apply, if_pos h]

theorem nextNonce_of_le {self : Channel A} (h : limit A ≤ self.counter.toNat) (s : σ) :
    nextNonce (self, s) = .ok (.error ⟨⟩) (self, s) := by
  rw [nextNonce_apply, if_neg (Nat.not_lt.mpr h)]

/-- The counter does not wrap while nonces are left. -/
theorem toNat_counter_add_one {self : Channel A} (h : self.counter.toNat < limit A) :
    (self.counter + 1).toNat = self.counter.toNat + 1 := by
  have hlimit := limit_lt A
  have hone : (1 : UInt64).toNat = 1 := rfl
  rw [UInt64.toNat_add, hone, Nat.mod_eq_of_lt (by omega)]

/-- A channel that has taken `c` nonces. -/
def counted (aead : A.State) (iv : A.Nonce) (c : Nat) : Channel A :=
  { aead, iv, counter := .ofNat c }

theorem toNat_counter_counted (aead : A.State) (iv : A.Nonce) {c : Nat} (hc : c ≤ limit A) :
    (counted aead iv c).counter.toNat = c :=
  UInt64.toNat_ofNat_of_lt' (Nat.lt_of_le_of_lt hc (limit_lt A))

theorem nextNonce_counted (aead : A.State) (iv : A.Nonce) {c : Nat} (hc : c < limit A) (s : σ) :
    nextNonce (counted aead iv c, s) = .ok (.ok (nonceAt iv c)) (counted aead iv (c + 1), s) := by
  have hcounter := toNat_counter_counted aead iv (Nat.le_of_lt hc)
  rw [nextNonce_of_lt (by rw [hcounter]; exact hc), hcounter, counted, counted, UInt64.ofNat_add]
  rfl

theorem nextNonce_counted_limit (aead : A.State) (iv : A.Nonce) (s : σ) :
    nextNonce (counted aead iv (limit A), s) =
      .ok (.error ⟨⟩) (counted aead iv (limit A), s) :=
  nextNonce_of_le (Nat.le_of_eq (toNat_counter_counted aead iv (Nat.le_refl _)).symm) s

end Channel

end ConstArray
