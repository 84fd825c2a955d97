import ConstArray.Crypto.Channel
import ConstArray.Crypto.EncryptThenMac

/-! # Batches of records

`send_records` and `receive_records` process the chunks of one array in a loop. For
every AEAD they are the single operations on the records one after another, up to
the first failure. Over an AEAD that opens what it sealed, a batch arrives as it
was sent.
-/

namespace ConstArray

open Foundation

variable {w : Nat} {σ : Type} {A : Aead σ} {N R : ConcreteSize}

namespace Channel

/-- `send` of each record in turn, with its tag behind it, up to the first failure. -/
def sendEach : List (Array UInt8 R) →
    Exec (Channel A × σ) (Except Error (List (Array UInt8 (.sum R A.tagSize))))
  | [] => pure (.ok [])
  | record :: records => do
      match ← Channel.send record.toVector with
      | (.error e, _) => return .error e
      | (.ok tag, buf) => return (← sendEach records).map ((Array.ofVector buf).append tag :: ·)

/-- `receive` of each record with the tag behind it, up to the first failure. -/
def receiveEach : List (Array UInt8 (.sum R A.tagSize)) →
    Exec (Channel A × σ) (Except Error (List (Array UInt8 R)))
  | [] => pure (.ok [])
  | record :: records => do
      match ← Channel.receive record.left.toVector record.right with
      | (.error e, _) => return .error e
      | (.ok (), buf) => return (← receiveEach records).map (Array.ofVector buf :: ·)

/-- The slots of a loop as a list. -/
def slotList {X : Type} {n : Nat} (r : Except Error (List.Vector X n)) : Except Error (List X) :=
  r.map List.Vector.toList

/-- A loop over slots is a loop over the records, if there are as many. -/
theorem tryForZip_cons {X Y : Type} {n : Nat} (body : X → Y → Exec σ (Except Error X))
    (slots : List.Vector X (n + 1)) (y : Y) (ys : List Y) :
    slotList <$> tryForZip body slots (y :: ys) = (do
      match ← body slots.head y with
      | .error e => return .error e
      | .ok x => return (← slotList <$> tryForZip body slots.tail ys).map (x :: ·)) := by
  rw [tryForZip, map_bind]
  refine congrArg _ (funext ?_)
  rintro (_ | x)
  · rfl
  · dsimp only
    rw [map_bind, bind_map_left]
    refine congrArg _ (funext ?_)
    rintro (_ | rest)
    · rfl
    · dsimp only
      rw [map_pure, slotList, slotList]
      simp only [Except.map, List.Vector.toList_cons]

theorem sendLoop_eq_sendEach {n : Nat} (slots : List.Vector (Array UInt8 (.sum R A.tagSize)) n)
    {records : List (Array UInt8 R)} (hlength : records.length = n) :
    slotList <$> tryForZip sendNext slots records =
      (sendEach records : Exec (Channel A × σ) _) := by
  induction n generalizing records with
  | zero =>
      obtain rfl := List.eq_nil_of_length_eq_zero hlength
      rw [tryForZip, map_pure, sendEach, slotList]
      exact congrArg (pure ∘ Except.ok) (List.eq_nil_of_length_eq_zero slots.toList_length)
  | succ n ih =>
      obtain ⟨record, records, rfl⟩ := List.exists_cons_of_length_eq_add_one hlength
      rw [tryForZip_cons, sendEach, sendNext, Channel.send, bind_assoc, bind_assoc]
      refine congrArg _ (funext ?_)
      rintro (_ | nonce)
      · rfl
      · dsimp only
        simp only [bind_assoc]
        refine congrArg _ (funext fun self => ?_)
        rw [Aead.seal, Exec.lift_bind, bind_assoc]
        refine congrArg _ (funext ?_)
        rintro ⟨buf, tag⟩
        dsimp only
        rw [Array.concat_eq_append, Exec.ofOption_some, ih slots.tail (by simpa using hlength)]
        rfl

theorem receiveLoop_eq_receiveEach {n : Nat} (slots : List.Vector (Array UInt8 R) n)
    {records : List (Array UInt8 (.sum R A.tagSize))} (hlength : records.length = n) :
    slotList <$> tryForZip receiveNext slots records =
      (receiveEach records : Exec (Channel A × σ) _) := by
  induction n generalizing records with
  | zero =>
      obtain rfl := List.eq_nil_of_length_eq_zero hlength
      rw [tryForZip, map_pure, receiveEach, slotList]
      exact congrArg (pure ∘ Except.ok) (List.eq_nil_of_length_eq_zero slots.toList_length)
  | succ n ih =>
      obtain ⟨record, records, rfl⟩ := List.exists_cons_of_length_eq_add_one hlength
      rw [tryForZip_cons, receiveEach, receiveNext, Channel.receive, bind_assoc, bind_assoc]
      refine congrArg _ (funext ?_)
      rintro (_ | nonce)
      · rfl
      · dsimp only
        simp only [bind_assoc]
        refine congrArg _ (funext fun self => ?_)
        rw [Aead.open, Array.parts_eq_halves, Exec.ofOption_some, pure_bind, Exec.lift_bind,
          bind_assoc]
        refine congrArg _ (funext ?_)
        rintro ⟨buf, _ | _⟩
        · rfl
        · dsimp only
          rw [ih slots.tail (by simpa using hlength)]
          rfl

/-- The chunks of an array that may be an error. -/
def chunkList {X : Type} {S : ConcreteSize} (r : Except Error (Array X (.prod N S))) :
    Except Error (List (Array X S)) :=
  r.map fun a => a.chunks.flat

theorem sendRecords_eq_sendEach (records : Array UInt8 (.prod N R)) :
    chunkList <$> sendRecords records =
      (sendEach records.chunks.flat : Exec (Channel A × σ) _) := by
  rw [← sendLoop_eq_sendEach
    (Array.tabulate N fun _ => Array.tabulate (.sum R A.tagSize) fun _ => 0).toVector
    records.chunks.length_flat, sendRecords, Array.default_pure Array.noDrop,
    Array.default_pure Array.noDrop, pure_bind, Array.intoChunks_eq_chunks, Exec.ofOption_some,
    pure_bind, map_bind, map_eq_pure_bind]
  refine congrArg _ (funext ?_)
  rintro (_ | sealed)
  · rfl
  · dsimp only
    rw [Array.fromChunks_eq_join, Exec.ofOption_some, pure_bind, map_pure, chunkList, slotList]
    simp only [Except.map, Array.chunks_join, Array.flat_ofVector]

theorem receiveRecords_eq_receiveEach (sealed : SealedRecords A N R) :
    chunkList <$> receiveRecords sealed =
      (receiveEach sealed.chunks.flat : Exec (Channel A × σ) _) := by
  rw [← receiveLoop_eq_receiveEach
    (Array.tabulate N fun _ => Array.tabulate R fun _ => 0).toVector
    sealed.chunks.length_flat, receiveRecords, Array.default_pure Array.noDrop,
    Array.default_pure Array.noDrop, pure_bind, Array.intoChunks_eq_chunks, Exec.ofOption_some,
    pure_bind, map_bind, map_eq_pure_bind]
  refine congrArg _ (funext ?_)
  rintro (_ | records)
  · rfl
  · dsimp only
    rw [Array.fromChunks_eq_join, Exec.ofOption_some, pure_bind, map_pure, chunkList, slotList]
    simp only [Except.map, Array.chunks_join, Array.flat_ofVector]

/-- A batch is the single operations on its records in order, up to the first failure, for
every AEAD: with the same calls, the same counter afterwards, and the same panics, which
leave the same channel behind. What is sealed is record after record, each with its tag
behind it. -/
theorem batches_are_sequences (A : Aead σ) :
    (∀ (N R : ConcreteSize) (records : Array UInt8 (.prod N R)),
      chunkList <$> sendRecords records =
        (sendEach records.chunks.flat : Exec (Channel A × σ) _)) ∧
    (∀ (N R : ConcreteSize) (sealed : SealedRecords A N R),
      chunkList <$> receiveRecords sealed =
        (receiveEach sealed.chunks.flat : Exec (Channel A × σ) _)) :=
  ⟨fun _ _ => sendRecords_eq_sendEach, fun _ _ => receiveRecords_eq_receiveEach⟩

/-! ## Two channels with the same key

Alice sends and Bob receives what she sent. Both count the same records. -/

section Keyed

variable (h : A.Sealing w) (key : A.Key) (iv : A.Nonce) {c : Nat}

/-- A channel that has processed `c` records under a key. -/
abbrev keyed (c : Nat) : Channel A := counted (h.state key) iv c

theorem new_eq_keyed : Channel.new key iv = pure (keyed h key iv 0) := by
  rw [Channel.new, h.new_eq, pure_bind]
  rfl

/-- The records sealed under the nonces from `c` on. -/
def sealedFrom (c : Nat) : List (Array UInt8 R) → List (Array UInt8 (.sum R A.tagSize))
  | [] => []
  | record :: records => h.sealed key (nonceAt iv c) recordAad record :: sealedFrom (c + 1) records

theorem length_sealedFrom (records : List (Array UInt8 R)) :
    (sealedFrom h key iv c records).length = records.length := by
  induction records generalizing c with
  | nil => rfl
  | cons record records ih => rw [sealedFrom, List.length_cons, List.length_cons, ih]

theorem send_keyed {n : Nat} (hn : n < 2 ^ w) (hc : c < limit A) (record : List.Vector UInt8 n)
    (s : σ) :
    Channel.send record (keyed h key iv c, s) = .ok
      (.ok (h.tag key (nonceAt iv c) recordAad (h.encrypt key (nonceAt iv c) record).toList),
        h.encrypt key (nonceAt iv c) record) (keyed h key iv (c + 1), s) := by
  have hcall := congrFun (h.encrypt_eq key (nonceAt iv c) recordAad record hn) s
  rw [Channel.send, Exec.bind_of_ok (nextNonce_counted _ iv hc s)]
  dsimp only
  rw [Exec.bind_of_ok (Exec.get_apply _)]
  exact Exec.bind_of_ok (Exec.lift_of_ok hcall) _

/-- What was sent is received, at the same counter. -/
theorem receive_keyed {n : Nat} (hn : n < 2 ^ w) (hc : c < limit A)
    (record : List.Vector UInt8 n) (s : σ) :
    Channel.receive (h.encrypt key (nonceAt iv c) record)
      (h.tag key (nonceAt iv c) recordAad (h.encrypt key (nonceAt iv c) record).toList)
      (keyed h key iv c, s) = .ok (.ok (), record) (keyed h key iv (c + 1), s) := by
  have hdecrypt := h.decrypt_eq key (nonceAt iv c) recordAad (h.encrypt key (nonceAt iv c) record)
    (h.tag key (nonceAt iv c) recordAad (h.encrypt key (nonceAt iv c) record).toList) hn
  rw [if_pos rfl, h.decrypt_encrypt] at hdecrypt
  rw [Channel.receive, Exec.bind_of_ok (nextNonce_counted _ iv hc s)]
  dsimp only
  rw [Exec.bind_of_ok (Exec.get_apply _)]
  exact Exec.bind_of_ok (Exec.lift_of_ok (congrFun hdecrypt s)) _

theorem sendEach_keyed (hR : R.count < 2 ^ w) (hc : c ≤ limit A)
    (records : List (Array UInt8 R)) (s : σ) :
    sendEach records (keyed h key iv c, s) = if c + records.length ≤ limit A then
      .ok (.ok (sealedFrom h key iv c records)) (keyed h key iv (c + records.length), s)
      else .ok (.error ⟨⟩) (keyed h key iv (limit A), s) := by
  induction records generalizing c with
  | nil =>
      rw [List.length_nil, Nat.add_zero, if_pos hc]
      rfl
  | cons record records ih =>
      rw [List.length_cons, sendEach]
      rcases Nat.lt_or_eq_of_le hc with hlt | rfl
      · rw [Exec.bind_of_ok (send_keyed h key iv hR hlt record.toVector s)]
        dsimp only
        have hrest := ih hlt
        rw [show c + 1 + records.length = c + (records.length + 1) by omega] at hrest
        split at hrest
        next hle =>
          rw [Exec.bind_of_ok hrest, if_pos hle]
          rfl
        next hle =>
          rw [Exec.bind_of_ok hrest, if_neg hle]
          rfl
      · rw [Channel.send, bind_assoc, Exec.bind_of_ok (nextNonce_counted_limit _ iv s),
          if_neg (by omega)]
        rfl

theorem receiveEach_keyed (hR : R.count < 2 ^ w) (records : List (Array UInt8 R))
    (hc : c + records.length ≤ limit A) (s : σ) :
    receiveEach (sealedFrom h key iv c records) (keyed h key iv c, s) =
      .ok (.ok records) (keyed h key iv (c + records.length), s) := by
  induction records generalizing c with
  | nil => rfl
  | cons record records ih =>
      rw [List.length_cons] at hc
      have hreceive := receive_keyed h key iv hR (show c < limit A by omega) record.toVector s
      rw [sealedFrom, receiveEach, Aead.Sealing.sealed, Array.left_append, Array.right_append,
        Array.toVector_ofVector, Exec.bind_of_ok hreceive]
      dsimp only
      rw [Exec.bind_of_ok (ih (by omega)), Array.ofVector_toVector, List.length_cons,
        show c + 1 + records.length = c + (records.length + 1) by omega]
      rfl

/-- A computation whose result is known up to an injection. -/
theorem eq_ok_of_map {α β : Type} {f : α → β} (hf : Function.Injective f) {m : Exec σ α}
    {a : α} {s t : σ} (hm : (f <$> m) s = .ok (f a) t) : m s = .ok a t := by
  rw [Exec.map_apply] at hm
  cases hms : m s with
  | ok b u =>
      rw [hms] at hm
      obtain ⟨hab, rfl⟩ := Outcome.ok.inj hm
      rw [hf hab]
  | _ =>
      rw [hms] at hm
      cases hm

theorem chunkList_injective {X : Type} {S : ConcreteSize} :
    Function.Injective (chunkList (N := N) (S := S) (X := X)) := by
  rintro (_ | a) (_ | b) hab
  · rfl
  · cases hab
  · cases hab
  · simp only [chunkList, Except.map, Except.ok.injEq] at hab
    have hchunks : a.chunks = b.chunks := Array.ext_flat hab
    rw [← Array.join_chunks a, hchunks, Array.join_chunks]

/-- What a batch is sealed to. -/
def sealedBatch (c : Nat) (records : Array UInt8 (.prod N R)) : SealedRecords A N R :=
  (Array.ofList N (sealedFrom h key iv c records.chunks.flat)
    (by rw [length_sealedFrom, Array.length_flat])).join

theorem sendRecords_keyed (hR : R.count < 2 ^ w) (hc : c ≤ limit A)
    (records : Array UInt8 (.prod N R)) (s : σ) :
    sendRecords records (keyed h key iv c, s) = if c + N.count ≤ limit A then
      .ok (.ok (sealedBatch h key iv c records)) (keyed h key iv (c + N.count), s)
      else .ok (.error ⟨⟩) (keyed h key iv (limit A), s) := by
  have hsend := sendEach_keyed h key iv hR hc records.chunks.flat s
  rw [← sendRecords_eq_sendEach, Array.length_flat] at hsend
  split at hsend
  next hle =>
    rw [if_pos hle]
    apply eq_ok_of_map chunkList_injective
    rw [hsend]
    simp only [chunkList, Except.map, sealedBatch, Array.chunks_join, Array.flat_ofList]
  next hle =>
    rw [if_neg hle]
    exact eq_ok_of_map chunkList_injective hsend

/-- A batch that was sealed opens to its records. -/
theorem receiveRecords_keyed (hR : R.count < 2 ^ w) (hc : c + N.count ≤ limit A)
    (records : Array UInt8 (.prod N R)) (s : σ) :
    receiveRecords (sealedBatch h key iv c records) (keyed h key iv c, s) =
      .ok (.ok records) (keyed h key iv (c + N.count), s) := by
  apply eq_ok_of_map chunkList_injective
  rw [receiveRecords_eq_receiveEach, sealedBatch, Array.chunks_join, Array.flat_ofList,
    receiveEach_keyed h key iv hR _ (by rwa [Array.length_flat]), Array.length_flat]
  rfl

end Keyed

/-- What Alice sends with one call, with a length that fits into a word. -/
inductive Message (w : Nat) where
  | single {n : Nat} (hn : n < 2 ^ w) (record : List.Vector UInt8 n)
  | batch (N R : ConcreteSize) (hR : R.count < 2 ^ w) (records : Array UInt8 (.prod N R))

/-- The channels of Alice and Bob. -/
structure Ends (A : Aead σ) where
  alice : Channel A
  bob : Channel A

namespace Ends

variable {τ α : Type}

def onAlice (c : Exec (Channel A × τ) α) : Exec (Ends A × τ) α :=
  c.zoom Ends.alice fun ends alice => { ends with alice }

def onBob (c : Exec (Channel A × τ) α) : Exec (Ends A × τ) α :=
  c.zoom Ends.bob fun ends bob => { ends with bob }

variable {alice alice' bob bob' : Channel A} {s t : τ} {r : α} {c : Exec (Channel A × τ) α}

theorem onAlice_of_ok (h : c (alice, s) = .ok r (alice', t)) :
    onAlice c (⟨alice, bob⟩, s) = .ok r (⟨alice', bob⟩, t) := Exec.zoom_of_ok h

theorem onBob_of_ok (h : c (bob, s) = .ok r (bob', t)) :
    onBob c (⟨alice, bob⟩, s) = .ok r (⟨alice, bob'⟩, t) := Exec.zoom_of_ok h

end Ends

namespace Message

/-- The plaintext of the call. -/
def bytes : Message w → List UInt8
  | .single _ record => record.toList
  | .batch _ _ _ records => records.flat

/-- The number of records. -/
def records : Message w → Nat
  | .single _ _ => 1
  | .batch N _ _ _ => N.count

/-- Alice sends the message, and Bob receives what she sent. -/
def transmit : Message w → Exec (Ends A × σ) (Except Error (List UInt8))
  | .single _ record => do
      match ← Ends.onAlice (Channel.send record) with
      | (.error e, _) => return .error e
      | (.ok tag, buf) =>
          let (r, buf) ← Ends.onBob (Channel.receive buf tag)
          return r.map fun _ => buf.toList
  | .batch _ _ _ records => do
      match ← Ends.onAlice (Channel.sendRecords records) with
      | .error e => return .error e
      | .ok sealed => return (← Ends.onBob (Channel.receiveRecords sealed)).map Array.flat

/-- Every message in turn, between two fresh channels. -/
def transmitAll (key : A.Key) (iv : A.Nonce) (ms : List (Message w)) :
    Exec σ (List (Except Error (List UInt8))) := do
  let alice ← Channel.new key iv
  let bob ← Channel.new key iv
  let (arrived, _) ← Exec.letMut { alice, bob : Ends A } (ms.mapM transmit)
  return arrived

/-- What arrives when nonces are left for records up to `limit`, and `c` have been used. -/
def arrivals (limit : Nat) : Nat → List (Message w) → List (Except Error (List UInt8))
  | _, [] => []
  | c, m :: ms =>
      if c + m.records ≤ limit then .ok m.bytes :: arrivals limit (c + m.records) ms
      else .error ⟨⟩ :: arrivals limit limit ms

section Keyed

variable (h : A.Sealing w) (key : A.Key) (iv : A.Nonce) {a b : Nat}

/-- One message between channels that are in step, unless Alice has run out of
nonces. -/
theorem transmit_keyed (ha : a ≤ limit A) (hb : b ≤ limit A) (hab : a = b ∨ a = limit A)
    (m : Message w) (s : σ) :
    m.transmit (⟨keyed h key iv a, keyed h key iv b⟩, s) = if a + m.records ≤ limit A then
      .ok (.ok m.bytes) (⟨keyed h key iv (a + m.records), keyed h key iv (b + m.records)⟩, s)
      else .ok (.error ⟨⟩) (⟨keyed h key iv (limit A), keyed h key iv b⟩, s) := by
  cases m with
  | single hn record =>
      rw [transmit, records, bytes]
      by_cases hlt : a < limit A
      · obtain rfl : a = b := hab.resolve_right (Nat.ne_of_lt hlt)
        rw [Exec.bind_of_ok (Ends.onAlice_of_ok (send_keyed h key iv hn hlt record s)),
          if_pos (Nat.succ_le_of_lt hlt)]
        dsimp only
        rw [Exec.bind_of_ok (Ends.onBob_of_ok (receive_keyed h key iv hn hlt record s))]
        rfl
      · obtain rfl : a = limit A := Nat.le_antisymm ha (Nat.le_of_not_lt hlt)
        have hsend : Channel.send record (keyed h key iv (limit A), s) =
            .ok (.error ⟨⟩, record) (keyed h key iv (limit A), s) :=
          Exec.bind_of_ok (nextNonce_counted_limit _ iv s) _
        rw [Exec.bind_of_ok (Ends.onAlice_of_ok hsend), if_neg (by omega)]
        rfl
  | batch N R hR records =>
      have hsend := sendRecords_keyed h key iv hR ha records s
      rw [transmit, Message.records, bytes]
      by_cases hle : a + N.count ≤ limit A
      · rw [if_pos hle] at hsend ⊢
        have hsame : sealedBatch h key iv a records = sealedBatch h key iv b records := by
          rcases hab with rfl | rfl
          · rfl
          · -- without nonces there are no records either
            have hN : N.count = 0 := by omega
            have hempty (x : SealedRecords A N R) : x.flat = [] := by
              apply List.eq_nil_of_length_eq_zero
              rw [x.length_flat, Size.count_prod, hN, Nat.zero_mul]
            ext1
            rw [hempty, hempty]
        rw [hsame] at hsend
        rw [Exec.bind_of_ok (Ends.onAlice_of_ok hsend)]
        dsimp only
        rw [Exec.bind_of_ok (Ends.onBob_of_ok
          (receiveRecords_keyed h key iv hR (by omega) records s))]
        rfl
      · rw [if_neg hle] at hsend ⊢
        rw [Exec.bind_of_ok (Ends.onAlice_of_ok hsend)]
        rfl

theorem mapM_transmit_keyed (ha : a ≤ limit A) (hb : b ≤ limit A) (hab : a = b ∨ a = limit A)
    (ms : List (Message w)) (s : σ) :
    ∃ ends, ms.mapM transmit (⟨keyed h key iv a, keyed h key iv b⟩, s) =
      .ok (arrivals (limit A) a ms) (ends, s) := by
  induction ms generalizing a b with
  | nil => exact ⟨_, rfl⟩
  | cons m ms ih =>
      have hm := transmit_keyed h key iv ha hb hab m s
      by_cases hle : a + m.records ≤ limit A
      · obtain ⟨ends, hrest⟩ := ih hle (show b + m.records ≤ limit A by omega) (by omega)
        rw [if_pos hle] at hm
        refine ⟨ends, ?_⟩
        rw [List.mapM_cons, Exec.bind_of_ok hm, Exec.bind_of_ok hrest, arrivals, if_pos hle]
        rfl
      · obtain ⟨ends, hrest⟩ := ih (Nat.le_refl _) hb (.inr rfl)
        rw [if_neg hle] at hm
        refine ⟨ends, ?_⟩
        rw [List.mapM_cons, Exec.bind_of_ok hm, Exec.bind_of_ok hrest, arrivals, if_neg hle]
        rfl

end Keyed

/-- Between two fresh channels with the same key, every message arrives as it was sent,
single or in a batch, for as long as there are nonces for all its records; no call
panics. -/
theorem arrives_as_sent (h : A.Sealing w) (key : A.Key) (iv : A.Nonce) (ms : List (Message w)) :
    transmitAll key iv ms = pure (arrivals (limit A) 0 ms) := by
  funext s
  obtain ⟨ends, hms⟩ := mapM_transmit_keyed h key iv (Nat.zero_le _) (Nat.zero_le _) (.inl rfl)
    ms s
  rw [transmitAll, new_eq_keyed h, pure_bind, pure_bind, Exec.bind_of_ok (Exec.letMut_of_ok hms)]

/-- A record and a batch of two, sent with `MyAead`. -/
theorem arrives_with_my_aead :
    transmitAll (A := MyAead true) (w := 64) (.tabulate _ fun i => .ofNat i)
      (.tabulate _ fun _ => 9) [
        .single (n := 3) (by decide) ⟨[1, 2, 3], rfl⟩,
        .batch (.len 2) (.len 2) (by decide) (.tabulate _ fun i => .ofNat i)] =
      (pure [.ok [1, 2, 3], .ok [0, 1, 2, 3]] : Exec Unit _) :=
  arrives_as_sent (MyAead.sealing true) _ _ _

end Message

end Channel

end ConstArray
