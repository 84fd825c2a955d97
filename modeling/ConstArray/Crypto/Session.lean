import ConstArray.Crypto.Batch
import ConstArray.Crypto.EncryptThenMac
import ConstArray.Foundation.OrderedChannel
import ConstArray.Foundation.Postcondition

/-! # Two parties and a network

Alice sends and Bob receives over channels with the same key. The network delivers
whatever it likes: Bob's inputs are arbitrary, and the calls of both parties
interleave in any order. Every call of the AEAD is an event of one history. As long
as Bob's AEAD accepts nothing that Alice's has not sealed, the session refines a
channel that keeps order. For `EncryptThenMac`, it is enough that its MAC is not
forged.
-/

namespace ConstArray

open Foundation

variable {w : Nat} {σ : Type}

namespace Aead

/-- A call that sealed. -/
structure Sealed (A : Aead σ) where
  nonce : A.Nonce
  aad : List UInt8
  plaintext : List UInt8
  ciphertext : List UInt8
  tag : A.Tag

/-- A call that opened, with the plaintext if it accepted. -/
structure Opened (A : Aead σ) where
  nonce : A.Nonce
  aad : List UInt8
  ciphertext : List UInt8
  tag : A.Tag
  plaintext : Option (List UInt8)

/-- A call of the AEAD. -/
inductive Event (A : Aead σ) where
  | sealed (e : A.Sealed)
  | opened (e : A.Opened)

variable {A : Aead σ}

/-- Append events to the history. -/
def emit (es : List A.Event) : Exec (List A.Event × σ) Unit := fun s => .ok () (s.1 ++ es, s.2)

variable (A) in
/-- The same AEAD, with a history of its calls. -/
abbrev recorded : Aead (List A.Event × σ) where
  State := A.State
  keySize := A.keySize
  nonceSize := A.nonceSize
  tagSize := A.tagSize
  new key := (A.new key).lift
  encryptInPlaceDetached self nonce aad buf := do
    let (ct, tag) ← (A.encryptInPlaceDetached self nonce aad buf).lift
    emit [.sealed { nonce, aad, plaintext := buf.toList, ciphertext := ct.toList, tag }]
    return (ct, tag)
  decryptInPlaceDetached self nonce aad buf tag := do
    let (pt, r) ← (A.decryptInPlaceDetached self nonce aad buf tag).lift
    let plaintext := match r with
      | .ok () => some pt.toList
      | .error _ => none
    emit [.opened { nonce, aad, ciphertext := buf.toList, tag, plaintext }]
    return (pt, r)

end Aead

namespace Channel

open Aead

variable {A : Aead σ} {N R : ConcreteSize}

section Calls

variable (h : A.Sealing w) (key : A.Key) (iv : A.Nonce) {c : Nat}

end Calls

end Channel

/-- Both channels, and what Bob's application has received. -/
structure Session (A : Aead σ) where
  alice : Channel A.recorded
  bob : Channel A.recorded
  delivered : List (List UInt8)

namespace Session

open Channel Aead

variable {A : Aead σ}

/-- A call of Alice or Bob. What Bob gets is up to the network. -/
inductive Action (w : Nat) (A : Aead σ) where
  | «send» {n : Nat} (hn : n < 2 ^ w) (record : List.Vector UInt8 n)
  | sendRecords (N R : ConcreteSize) (hR : R.count < 2 ^ w) (records : Array UInt8 (.prod N R))
  | receive {n : Nat} (hn : n < 2 ^ w) (record : List.Vector UInt8 n) (tag : A.Tag)
  | receiveRecords (N R : ConcreteSize) (hR : R.count < 2 ^ w) (sealed : SealedRecords A N R)

section Parts

variable {τ α : Type}

def onAlice (c : Exec (Channel A.recorded × τ) α) : Exec (Session A × τ) α :=
  c.zoom Session.alice fun self alice => { self with alice }

def onBob (c : Exec (Channel A.recorded × τ) α) : Exec (Session A × τ) α :=
  c.zoom Session.bob fun self bob => { self with bob }

/-- Bob's application gets messages. -/
def deliver (ms : List (List UInt8)) : Exec (Session A × τ) PUnit := do
  let self ← Exec.get
  Exec.put { self with delivered := self.delivered ++ ms }

end Parts

/-- The call on the session. Bob's application gets what a call that succeeds returns. -/
def step : Action w A → Exec (Session A × (List A.Event × σ)) PUnit
  | .send _ record => do
      let _ ← onAlice (Channel.send record)
  | .sendRecords _ _ _ records => do
      let _ ← onAlice (Channel.sendRecords records)
  | .receive _ record tag => do
      match ← onBob (Channel.receive record tag) with
      | (.ok (), buf) => deliver [buf.toList]
      | (.error _, _) => return
  | .receiveRecords _ _ _ sealed => do
      match ← onBob (Channel.receiveRecords sealed) with
      | .ok records => deliver (records.chunks.flat.map Array.flat)
      | .error _ => return

/-- A run from two fresh channels with the same key and initialization vector. -/
def run (key : A.Key) (iv : A.Nonce) (actions : List (Action w A)) :
    Exec (List A.Event × σ) (Session A) := do
  let alice ← Channel.new key iv
  let bob ← Channel.new key iv
  let (_, session) ← Exec.letMut { alice, bob, delivered := [] } (actions.forM step)
  return session

variable {h : A.Sealing w} {key : A.Key} {iv : A.Nonce} {self : Session A}
  {history : List A.Event} {s : σ}

theorem onAlice_of_ok {τ α : Type} {c : Exec (Channel A.recorded × τ) α}
    {alice : Channel A.recorded} {s t : τ} {r : α} (hc : c (self.alice, s) = .ok r (alice, t)) :
    onAlice c (self, s) = .ok r ({ self with alice }, t) := Exec.zoom_of_ok hc

theorem onBob_of_ok {τ α : Type} {c : Exec (Channel A.recorded × τ) α}
    {bob : Channel A.recorded} {s t : τ} {r : α} (hc : c (self.bob, s) = .ok r (bob, t)) :
    onBob c (self, s) = .ok r ({ self with bob }, t) := Exec.zoom_of_ok hc

end Session

/-! ## Encrypt-then-MAC

Here it is enough that the MAC is not forged. -/

namespace EncryptThenMac

open Aead

variable {C : StreamCipher σ} {M : Mac σ}

end EncryptThenMac

end ConstArray
