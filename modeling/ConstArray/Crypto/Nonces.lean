import ConstArray.Crypto.Channel
import ConstArray.Foundation.Postcondition

/-! # Nonces over a whole run

A channel is used by any sequence of its operations, over an AEAD of which every
call is written to a log. Whatever the AEAD does, the log holds the nonces of the
counters from zero on, so none is used twice. The AEAD may panic: the caller catches
the panic, and goes on with the channel as it was left.
-/

namespace ConstArray

open Foundation

variable {σ : Type}

/-- The same AEAD, with a log of the nonces it is called with. -/
abbrev Aead.logged (A : Aead σ) : Aead (List A.Nonce × σ) where
  State := A.State
  keySize := A.keySize
  nonceSize := A.nonceSize
  tagSize := A.tagSize
  new key := (A.new key).lift
  encryptInPlaceDetached self nonce aad buf := fun s =>
    (A.encryptInPlaceDetached self nonce aad buf).lift (s.1 ++ [nonce], s.2)
  decryptInPlaceDetached self nonce aad buf tag := fun s =>
    (A.decryptInPlaceDetached self nonce aad buf tag).lift (s.1 ++ [nonce], s.2)

namespace Channel

/-- The operations on a channel, with their arguments. -/
inductive Operation (A : Aead σ) where
  | «send» {n : Nat} (record : List.Vector UInt8 n)
  | receive {n : Nat} (record : List.Vector UInt8 n) (tag : A.Tag)
  | sendRecords (N R : ConcreteSize) (records : Array UInt8 (.prod N R))
  | receiveRecords (N R : ConcreteSize) (sealed : SealedRecords A N R)

namespace Operation

variable {A : Aead σ}

/-- Forget what an operation returns, except whether it failed. -/
def succeeded {α : Type} : Except Error α → Bool
  | .ok _ => true
  | .error _ => false

/-- Whether the operation succeeds. -/
def run : Operation A → Exec (Channel A × σ) Bool
  | .send record => do
      let (r, _) ← Channel.send record
      return succeeded r
  | .receive record tag => do
      let (r, _) ← Channel.receive record tag
      return succeeded r
  | .sendRecords _ _ records => do
      let r ← Channel.sendRecords records
      return succeeded r
  | .receiveRecords _ _ sealed => do
      let r ← Channel.receiveRecords sealed
      return succeeded r

/-- The caller catches a panic, and keeps the channel. -/
def attempt (op : Operation A) : Exec (Channel A × σ) PUnit := do
  let _ ← op.run.catchUnwind

/-- The number of records of an operation. -/
def records : Operation A → Nat
  | .send _ => 1
  | .receive _ _ => 1
  | .sendRecords N _ _ => N.count
  | .receiveRecords N _ _ => N.count

end Operation

/-- A run on a fresh channel. It goes on after a panic of an operation. -/
def runAll (A : Aead σ) (key : A.Key) (iv : A.Nonce) (ops : List (Operation A)) :
    Exec σ (Channel A) := do
  let (_, self) ← Exec.letMut (← Channel.new key iv) (ops.forM Operation.attempt)
  return self

variable {A : Aead σ} {crash : Prop}

/-- The first `k` nonces of a channel. -/
def nonces (iv : A.Nonce) (k : Nat) : List A.Nonce := (List.range k).map (nonceAt iv)

/-- The AEAD has been called with the nonces of the counters below the current one. -/
structure Counts (iv : A.Nonce) (s : Channel A.logged × (List A.Nonce × σ)) : Prop where
  iv_eq : s.1.iv = iv
  log_eq : s.2.1 = nonces iv s.1.counter.toNat
  le_limit : s.1.counter.toNat ≤ limit A

theorem nodup_nonces (iv : A.Nonce) {k : Nat} (hk : k ≤ limit A) : (nonces iv k).Nodup := by
  apply List.Nodup.map_on _ List.nodup_range
  intro c hc d hd h
  have hpow := limit_le_pow A
  rw [List.mem_range] at hc hd
  exact nonceAt_inj (by omega) (by omega) h

section Calls

variable {iv : A.Nonce} {ch : Channel A.logged} {s : List A.Nonce × σ}

/-- A nonce that is taken and used keeps the log and the counter in step. -/
theorem Counts.next (h : Counts iv (ch, s)) (hlt : ch.counter.toNat < limit A) (t : σ) :
    Counts iv ({ ch with counter := ch.counter + 1 },
      (s.1 ++ [nonceAt ch.iv ch.counter.toNat], t)) where
  iv_eq := h.iv_eq
  log_eq := by
    have hlog : s.1 = nonces iv ch.counter.toNat := h.log_eq
    have hiv : ch.iv = iv := h.iv_eq
    change s.1 ++ [nonceAt ch.iv ch.counter.toNat] = nonces iv (ch.counter + 1).toNat
    rw [toNat_counter_add_one hlt, hlog, hiv, nonces, nonces, List.range_succ, List.map_append,
      List.map_singleton]
    rfl
  le_limit := by
    change (ch.counter + 1).toNat ≤ limit A
    rw [toNat_counter_add_one hlt]
    exact hlt

/-- One call of the AEAD under the next nonce, whatever it does. The counter is raised
before, so a panic finds it in step with the log. -/
theorem Counts.call (h : Counts iv (ch, s)) (hlt : ch.counter.toNat < limit A) {α : Type}
    (c : Exec σ α) :
    Exec.Ensures (Exec.lift fun u => c.lift (u.1 ++ [nonceAt ch.iv ch.counter.toNat], u.2))
      ({ ch with counter := ch.counter + 1 }, s)
      (fun _ t => Counts iv t ∧ t.1.counter.toNat = ch.counter.toNat + 1) (Counts iv) True := by
  apply Exec.Ensures.lift
  unfold Exec.Ensures Exec.lift
  dsimp only
  cases c s.2 with
  | ok a t => exact ⟨h.next hlt t, toNat_counter_add_one hlt⟩
  | panic t => exact h.next hlt t
  | abort => trivial
  | ub => trivial

end Calls

/-- What follows `next_nonce` is entered with a nonce that is left, or with the error. -/
theorem nextNonce_ensures {β : Type} {ch : Channel A} {s : σ}
    {k : Except Error A.Nonce → Exec (Channel A × σ) β} {Q : β → Channel A × σ → Prop}
    {R : Channel A × σ → Prop}
    (hok : ch.counter.toNat < limit A → (k (.ok (nonceAt ch.iv ch.counter.toNat))).Ensures
      ({ ch with counter := ch.counter + 1 }, s) Q R crash)
    (herror : limit A ≤ ch.counter.toNat → (k (.error ⟨⟩)).Ensures (ch, s) Q R crash) :
    (nextNonce >>= k).Ensures (ch, s) Q R crash := by
  by_cases hlt : ch.counter.toNat < limit A
  · exact .bind (.of_ok (nextNonce_of_lt hlt s) (hok hlt))
  · have hle := Nat.le_of_not_lt hlt
    exact .bind (.of_ok (nextNonce_of_le hle s) (herror hle))

section Operations

variable (iv : A.Nonce) {N R : ConcreteSize}

theorem send_counts {n : Nat} (record : List.Vector UInt8 n) :
    (Channel.send record).Preserves (Counts (A := A) iv) := by
  rintro ⟨ch, s⟩ h
  apply nextNonce_ensures
  · intro hlt
    exact .bind (.get (.bind ((h.call hlt _).mono fun _ _ ht => .pure ht.1)))
  · exact fun _ => .pure h

theorem receive_counts {n : Nat} (record : List.Vector UInt8 n) (tag : A.Tag) :
    (Channel.receive (A := A.logged) record tag).Preserves (Counts iv) := by
  rintro ⟨ch, s⟩ h
  apply nextNonce_ensures
  · intro hlt
    exact .bind (.get (.bind ((h.call hlt _).mono fun _ _ ht => .pure ht.1)))
  · exact fun _ => .pure h

/-- A call that takes one nonce if it succeeds, and that has to succeed where `sure`
holds and a nonce is left. -/
def Takes (sure : Prop) {α : Type}
    (c : Exec (Channel A.logged × (List A.Nonce × σ)) (Except Error α)) : Prop :=
  ∀ ch s, Counts iv (ch, s) → c.Ensures (ch, s)
    (fun r t => Counts iv t ∧
      (Operation.succeeded r = true →
        ch.counter.toNat < limit A ∧ t.1.counter.toNat = ch.counter.toNat + 1) ∧
      (sure → ch.counter.toNat < limit A → Operation.succeeded r = true))
    (Counts iv) True

theorem Takes.preserves {sure : Prop} {α : Type}
    {c : Exec (Channel A.logged × (List A.Nonce × σ)) (Except Error α)} (h : Takes iv sure c) :
    c.Preserves (Counts iv) :=
  fun s hs => (h s.1 s.2 hs).mono fun _ _ ht => ht.1

theorem sendNext_takes (slot : Array UInt8 (.sum R A.tagSize)) (record : Array UInt8 R) :
    Takes iv True (Channel.sendNext (A := A.logged) slot record) := by
  intro ch s h
  apply nextNonce_ensures
  · intro hlt
    refine .bind (.get (.bind ?_))
    unfold Aead.seal
    rw [Exec.lift_bind]
    refine .bind ((h.call hlt _).mono ?_)
    rintro ⟨buf, tag⟩ t ⟨ht, hcounter⟩
    dsimp only
    rw [Array.concat_eq_append]
    exact .pure ⟨ht, fun _ => ⟨hlt, hcounter⟩, fun _ _ => rfl⟩
  · intro hle
    exact .pure ⟨h, fun hr => absurd hr Bool.false_ne_true,
      fun _ hlt => absurd hlt (Nat.not_lt.mpr hle)⟩

theorem receiveNext_takes (slot : Array UInt8 R) (record : Array UInt8 (.sum R A.tagSize)) :
    Takes iv False (Channel.receiveNext (A := A.logged) slot record) := by
  intro ch s h
  apply nextNonce_ensures
  · intro hlt
    refine .bind (.get ?_)
    unfold Aead.open
    rw [Array.parts_eq_halves, Exec.ofOption_some, pure_bind, Exec.lift_bind]
    refine .bind ((h.call hlt _).mono ?_)
    rintro ⟨buf, _ | _⟩ t ⟨ht, hcounter⟩
    · exact .pure ⟨ht, fun _ => ⟨hlt, hcounter⟩, False.elim⟩
    · exact .pure ⟨ht, fun _ => ⟨hlt, hcounter⟩, False.elim⟩
  · exact fun _ => .pure ⟨h, fun hr => absurd hr Bool.false_ne_true, False.elim⟩

theorem sendRecords_counts (records : Array UInt8 (.prod N R)) :
    (Channel.sendRecords records).Preserves (Counts (A := A) iv) := by
  unfold sendRecords
  rw [Array.default_pure Array.noDrop, Array.default_pure Array.noDrop, pure_bind,
    Array.intoChunks_eq_chunks, Exec.ofOption_some, pure_bind]
  refine Exec.Preserves.bind (.tryForZip (fun x y => (sendNext_takes iv x y).preserves) _ _) ?_
  rintro (_ | sealed)
  · exact .pure _
  · dsimp only
    rw [Array.fromChunks_eq_join]
    exact .pure _

theorem receiveRecords_counts (sealed : SealedRecords A.logged N R) :
    (Channel.receiveRecords sealed).Preserves (Counts iv) := by
  unfold receiveRecords
  rw [Array.default_pure Array.noDrop, Array.default_pure Array.noDrop, pure_bind,
    Array.intoChunks_eq_chunks, Exec.ofOption_some, pure_bind]
  refine Exec.Preserves.bind (.tryForZip (fun x y => (receiveNext_takes iv x y).preserves) _ _) ?_
  rintro (_ | records)
  · exact .pure _
  · dsimp only
    rw [Array.fromChunks_eq_join]
    exact .pure _

/-- Every operation takes one nonce for each call of the AEAD. -/
theorem run_counts (op : Operation A.logged) : op.run.Preserves (Counts iv) := by
  cases op with
  | «send» record => exact (send_counts iv record).bind fun _ => .pure _
  | receive record tag => exact (receive_counts iv record tag).bind fun _ => .pure _
  | sendRecords N R records => exact (sendRecords_counts iv records).bind fun _ => .pure _
  | receiveRecords N R sealed => exact (receiveRecords_counts iv sealed).bind fun _ => .pure _

end Operations

/-- In every state that a run reaches, the calls of the AEAD have been counted. -/
theorem runAll_counts (A : Aead σ) (key : A.Key) (iv : A.Nonce)
    (ops : List (Operation A.logged)) (s : σ) :
    (runAll A.logged key iv ops).Ensures ([], s) (fun ch t => Counts iv (ch, t))
      (fun t => t.1 = []) True := by
  have hnew : (Channel.new (A := A.logged) key iv).Ensures ([], s)
      (fun ch t => Counts iv (ch, t)) (fun t => t.1 = []) True := by
    refine .bind ?_
    unfold Exec.Ensures Aead.logged Exec.lift
    dsimp only
    cases A.new key s with
    | ok aead t => exact ⟨rfl, rfl, Nat.zero_le _⟩
    | panic t => rfl
    | abort => trivial
    | ub => trivial
  refine .bind (hnew.mono fun ch t ht => .bind (.letMut ?_))
  have hrun : (ops.forM Operation.attempt).Ensures (ch, t) (fun _ => Counts iv)
      (fun _ => False) True :=
    .forM (fun op u hu => .bind (((run_counts iv op).catchUnwind hu).mono fun _ _ hv => .pure hv))
      ops ht
  exact hrun.imp (fun _ u hu => .pure hu) fun _ => False.elim

/-- Over every run of sends, receives and batches, of any arguments and with any outcome of
the AEAD, including panics after which the channel is used again, the nonces it is called
with are those of the counters `0, 1, 2, …` in order, and pairwise different. -/
theorem nonces_never_repeat (A : Aead σ) (key : A.Key) (iv : A.Nonce)
    (ops : List (Operation A.logged)) (s : σ) :
    (runAll A.logged key iv ops).Ensures ([], s)
      (fun ch t => t.1 = nonces iv ch.counter.toNat ∧ t.1.Nodup) (fun t => t.1 = []) True := by
  refine (runAll_counts A key iv ops s).mono ?_
  intro ch t h
  have hlog : t.1 = nonces iv ch.counter.toNat := h.log_eq
  exact ⟨hlog, hlog ▸ nodup_nonces iv h.le_limit⟩

/-! ## Exhaustion -/

section Exhaustion

variable {iv : A.Nonce} {ch : Channel A.logged} {s : List A.Nonce × σ} {N R : ConcreteSize}

theorem Counts.length_eq (h : Counts iv (ch, s)) : s.1.length = ch.counter.toNat := by
  have hlog : s.1 = nonces iv ch.counter.toNat := h.log_eq
  rw [hlog, nonces, List.length_map, List.length_range]

end Exhaustion

end Channel

end ConstArray
