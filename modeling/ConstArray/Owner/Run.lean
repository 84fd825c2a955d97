import ConstArray.Owner.Operation
import ConstArray.Size.Soundness
import Mathlib.Logic.Relation

/-! # Ownership over whole runs

A program state is a pool of live values next to the world. An operation takes values
out of the pool, and the values it returns are added; if it unwinds, what it took is
gone. In every operation at most one call of user code fails.
-/

namespace ConstArray

open Foundation

variable {U : Type}

/-- A live value of any type. -/
structure Value where
  Carrier : Type
  owning : Owning Carrier
  value : Carrier

namespace Value

instance : Owning Value where
  elements v := v.owning.elements v.value

def of {X : Type} [h : Owning X] (x : X) : Value := ⟨X, h, x⟩

@[simp] theorem owned_of {X : Type} [Owning X] (x : X) : owned (of x) = owned x := rfl

end Value

/-- An operation that takes the values in `consumed` by value and returns those in `outs`.
Its user code is lawful; what it borrows may be a part of any live value. -/
inductive Operation (w : Nat) (d : Destructor U) :
    {α : Type} → List Value → Exec (World U) α → (α → List Value) → Prop where
  /-- Other safe code of the caller. -/
  | user {α : Type} {consumed : List Value} {c : Exec (World U) α} {outs : α → List Value}
      (h : (World.accounting U).Conserves (total owned consumed) c fun a => total owned (outs a)) :
      Operation w d consumed c outs
  | fromFn {X : Type} [Owning X] (S : ConcreteSize) {f : Nat → Exec (World U) X}
      (hf : ∀ i, (World.accounting U).Conserves 0 (f i) owned) :
      Operation w d [] (Array.fromFn d.dropValue S f) fun a => [.of a]
  | tryFromFn {X E : Type} [Owning X] [Owning E] (S : ConcreteSize)
      {f : Nat → Exec (World U) (Except E X)}
      (hf : ∀ i, (World.accounting U).Conserves 0 (f i) owned) :
      Operation w d [] (Array.tryFromFn d.dropValue d.dropValue S f) fun r => [.of r]
  | tryFromIter {X : Type} [Owning X] (S : ConcreteSize) {next : Exec (World U) (Option X)}
      {dropIter : Exec (World U) Unit} (hnext : (World.accounting U).Conserves 0 next owned)
      (hdropIter : (World.accounting U).Conserves 0 dropIter fun _ => 0) :
      Operation w d [] (Array.tryFromIter d.dropValue S next dropIter) fun r => [.of r]
  | default {X : Type} [Owning X] (S : ConcreteSize) {defaultElem : Exec (World U) X}
      (hdefault : (World.accounting U).Conserves 0 defaultElem owned) :
      Operation w d [] (Array.default d.dropValue S defaultElem) fun a => [.of a]
  | clone {X : Type} [Owning X] {S : ConcreteSize} (a : Array X S)
      {cloneElem : X → Exec (World U) X}
      (hclone : ∀ x, (World.accounting U).Conserves 0 (cloneElem x) owned) :
      Operation w d [] (a.clone d.dropValue cloneElem) fun b => [.of b]
  | map {X Y : Type} [Owning X] [Owning Y] {S : ConcreteSize} (a : Array X S)
      {f : X → Exec (World U) Y}
      (hf : ∀ x, (World.accounting U).Conserves (owned x) (f x) owned) :
      Operation w d [.of a] (a.map Exec.panic d.dropValue d.dropValue f) fun b => [.of b]
  | zip {X Y : Type} [Owning X] [Owning Y] {S : ConcreteSize} (a : Array X S) (b : Array Y S) :
      Operation w d [.of a, .of b] (a.zip Exec.panic d.dropValue d.dropValue b)
        fun c => [.of c]
  | zipWith {X Y Z : Type} [Owning Z] {S : ConcreteSize} (a : Array X S)
      (b : Array Y S) {f : X → Y → Exec (World U) Z}
      (hf : ∀ x y, (World.accounting U).Conserves 0 (f x y) owned) :
      Operation w d [] (a.zipWith d.dropValue f b) fun c => [.of c]
  | padFrom {X : Type} [Owning X] {P S : ConcreteSize} (proof : AtMost.Derivation w P S)
      (initial : Array X P) (fill : X) {cloneElem : X → Exec (World U) X}
      (hclone : ∀ x, (World.accounting U).Conserves 0 (cloneElem x) owned) :
      Operation w d [.of initial, .of fill]
        (Array.padFrom d.dropValue cloneElem initial proof.proof fill) fun a => [.of a]
  | truncate {X : Type} [Owning X] {P S : ConcreteSize} (proof : AtMost.Derivation w P S)
      (a : Array X S) :
      Operation w d [.of a] (a.truncate d.dropValue proof.proof) fun b => [.of b]
  | concat {X : Type} [Owning X] {A B : ConcreteSize} (a : Array X A) (b : Array X B) :
      Operation w d [.of a, .of b] (Exec.ofOption (a.concat b)) fun c => [.of c]
  | parts {X : Type} [Owning X] {A B : ConcreteSize} (a : Array X (.sum A B)) :
      Operation w d [.of a] (Exec.ofOption a.parts) fun ab => [.of ab.1, .of ab.2]
  | fromChunks {X : Type} [Owning X] {A B : ConcreteSize} (chunks : Array (Array X B) A) :
      Operation w d [.of chunks] (Exec.ofOption chunks.fromChunks) fun a => [.of a]
  | intoChunks {X : Type} [Owning X] {A B : ConcreteSize} (a : Array X (.prod A B)) :
      Operation w d [.of a] (Exec.ofOption a.intoChunks) fun chunks => [.of chunks]
  | cast {X : Type} [Owning X] {S S2 : ConcreteSize} (proof : SameLen.Derivation w S S2)
      (a : Array X S) :
      Operation w d [.of a] (Exec.ofOption (a.cast proof.proof)) fun b => [.of b]
  | tryCast {X : Type} [Owning X] {S S2 : ConcreteSize} (hS : S.Evaluates w)
      (hS2 : S2.Evaluates w) (a : Array X S) :
      Operation w d [.of a] (Exec.ofOption (Array.tryCast w S2 a)) fun r => [.of r]
  | new {X : Type} [Owning X] {n : Nat} (arr : List.Vector X n) :
      Operation w d [.of arr] (pure (Array.new arr)) fun a => [.of a]
  | intoArray {X : Type} [Owning X] {n : Nat} (a : Array X (.len n)) :
      Operation w d [.of a] (Exec.ofOption a.intoArray) fun arr => [.of arr]
  | tryFromSlice {X : Type} [Owning X] (S : ConcreteSize) {m : Mem X} {slice : Slice .shared .elem}
      {xs : List X} {cloneElem : X → Exec (World U) X} (hlen : slice.len < 2 ^ w)
      (hxs : m.values slice.addr slice.len = some xs)
      (hclone : ∀ x, (World.accounting U).Conserves 0 (cloneElem x) owned) :
      Operation w d [] (Array.tryFromSlice w d.dropValue cloneElem S m slice) fun r => [.of r]
  | drop {X : Type} [Owning X] {S : ConcreteSize} (a : Array X S) :
      Operation w d [.of a] (a.drop d.dropValue).run fun _ => []

/-- Every operation conserves ownership. -/
theorem Operation.conserves {w : Nat} {d : Destructor U} {α : Type} {consumed : List Value}
    {c : Exec (World U) α} {outs : α → List Value} (h : Operation w d consumed c outs) :
    (World.accounting U).Conserves (total owned consumed) c fun a => total owned (outs a) := by
  have hone {X : Type} [Owning X] (x : X) : owned x = total owned [Value.of x] :=
    (total_singleton owned (Value.of x)).symm
  have htwo {X Y : Type} [Owning X] [Owning Y] (x : X) (y : Y) :
      owned x + owned y = total owned [Value.of x, Value.of y] := by simp
  cases h with
  | user h => exact h
  | fromFn S hf => exact (Array.conserves_fromFn S hf).congr rfl hone
  | tryFromFn S hf => exact (Array.conserves_tryFromFn S hf).congr rfl hone
  | tryFromIter S hnext hdropIter =>
      exact (Array.conserves_tryFromIter S hnext hdropIter).congr rfl hone
  | default S hdefault => exact (Array.conserves_fromFn S fun _ => hdefault).congr rfl hone
  | clone a hclone => exact (Array.conserves_clone hclone a).congr rfl hone
  | map a hf => exact (Array.conserves_map Exec.panic hf a).congr (hone a) hone
  | zip a b => exact (Array.conserves_zip Exec.panic a b).congr (htwo a b) hone
  | zipWith a b hf => exact (Array.conserves_zipWith hf a b).congr rfl hone
  | padFrom proof initial fill hclone =>
      exact (Array.conserves_padFrom hclone proof.proof proof.count_le initial fill).congr
        (htwo initial fill) hone
  | truncate proof a =>
      exact (Array.conserves_truncate proof.proof proof.count_le a).congr (hone a) hone
  | concat a b => exact (Array.conserves_concat a b).congr (htwo a b) hone
  | parts a =>
      exact (Array.conserves_parts a).congr (hone a) fun ab =>
        (owned_prod ab).trans (htwo ab.1 ab.2)
  | fromChunks chunks => exact (Array.conserves_fromChunks chunks).congr (hone chunks) hone
  | intoChunks a => exact (Array.conserves_intoChunks a).congr (hone a) hone
  | cast proof a => exact (Array.conserves_cast proof.proof proof.count_eq a).congr (hone a) hone
  | tryCast hS hS2 a => exact (Array.conserves_tryCast hS hS2 a).congr (hone a) hone
  | new arr => exact (Array.conserves_new arr).congr (hone arr) hone
  | intoArray a => exact (Array.conserves_intoArray a).congr (hone a) hone
  | tryFromSlice S hlen hxs hclone =>
      exact (Array.conserves_tryFromSlice hclone S hlen hxs).congr rfl hone
  | drop a => exact (Array.conserves_drop a).congr (hone a) fun _ => rfl

/-! ## Runs -/

structure State (U : Type) where
  /-- The live values. -/
  pool : List Value
  world : World U

/-- One operation of the program, in which at most one call of user code panics. -/
inductive Step (w : Nat) (d : Destructor U) (s : State U) : State U → Prop where
  | returns {α : Type} {consumed rest : List Value} {c : Exec (World U) α}
      {outs : α → List Value} {a : α} {t : World U} (hpool : s.pool.Perm (consumed ++ rest))
      (hop : Operation w d consumed c outs) (hc : c { s.world with fuse := 1 } = .ok a t) :
      Step w d s ⟨outs a ++ rest, t⟩
  | unwinds {α : Type} {consumed rest : List Value} {c : Exec (World U) α}
      {outs : α → List Value} {t : World U} (hpool : s.pool.Perm (consumed ++ rest))
      (hop : Operation w d consumed c outs) (hc : c { s.world with fuse := 1 } = .panic t) :
      Step w d s ⟨rest, t⟩

/-- Every element is in exactly one place. -/
def State.Owns (s : State U) : Prop := s.world.Owns (total owned s.pool)

variable {w : Nat} {d : Destructor U} {s t : State U}

/-- How an operation ends on values of the pool. -/
theorem State.Owns.settles (h : s.Owns) {α : Type} {consumed rest : List Value}
    {c : Exec (World U) α} {outs : α → List Value} (hpool : s.pool.Perm (consumed ++ rest))
    (hop : Operation w d consumed c outs) :
    (World.accounting U).Settles (total owned rest) (fun a => total owned (outs a))
      { s.world with fuse := 1 } (c { s.world with fuse := 1 }) := by
  have hsplit : total owned s.pool = total owned consumed + total owned rest := by
    rw [← total_append]
    exact (hpool.map owned).sum_eq
  -- the values that stay in the pool are the frame of the operation
  have howns := World.Owns.with_fuse h 1
  rw [hsplit] at howns
  exact hop.conserves howns

theorem State.Owns.step (h : s.Owns) (hstep : Step w d s t) :
    t.Owns ∧ s.world.created ≤ t.world.created ∧ s.world.dropped ≤ t.world.dropped := by
  cases hstep with
  | returns hpool hop hc =>
      have hsettles := h.settles hpool hop
      rw [hc] at hsettles
      cases hsettles with
      | ok hown hlater =>
          refine ⟨?_, hlater.created_le, hlater.dropped_le⟩
          rwa [State.Owns, total_append]
  | unwinds hpool hop hc =>
      have hsettles := h.settles hpool hop
      rw [hc] at hsettles
      cases hsettles with
      | panic hown hlater => exact ⟨hown, hlater.created_le, hlater.dropped_le⟩

theorem State.Owns.run (h : s.Owns) (hrun : Relation.ReflTransGen (Step w d) s t) :
    t.Owns ∧ s.world.created ≤ t.world.created ∧ s.world.dropped ≤ t.world.dropped := by
  induction hrun with
  | refl => exact ⟨h, le_rfl, le_rfl⟩
  | tail _ hstep ih =>
      obtain ⟨hown, hcreated, hdropped⟩ := ih
      obtain ⟨hown', hcreated', hdropped'⟩ := hown.step hstep
      exact ⟨hown', hcreated.trans hcreated', hdropped.trans hdropped'⟩

/-- An operation returns or unwinds. -/
theorem State.Owns.ends (h : s.Owns) {α : Type} {consumed rest : List Value}
    {c : Exec (World U) α} {outs : α → List Value} (hpool : s.pool.Perm (consumed ++ rest))
    (hop : Operation w d consumed c outs) :
    (∃ a t, c { s.world with fuse := 1 } = .ok a t) ∨
      ∃ t, c { s.world with fuse := 1 } = .panic t := by
  have hsettles := h.settles hpool hop
  generalize c { s.world with fuse := 1 } = r at hsettles
  cases hsettles with
  | @ok a t => exact .inl ⟨a, t, rfl⟩
  | @panic t => exact .inr ⟨t, rfl⟩
  | abort htwo => exact absurd htwo (Nat.not_succ_le_self 1)

/-- After any sequence of operations, whatever user code failed in each of them, every
element that was ever created is in one live value, or was handed over to user code, or
was dropped once; the elements of the start are still accounted for. Every further
operation returns or unwinds, so it reads and drops no slot that is not initialized. -/
theorem ownership_conserved (h : s.Owns) (hrun : Relation.ReflTransGen (Step w d) s t) :
    t.Owns ∧
    (∀ x ∈ t.world.created,
      (total owned t.pool).count x + t.world.held.count x + t.world.dropped.count x = 1) ∧
    s.world.created ≤ t.world.created ∧ s.world.dropped ≤ t.world.dropped ∧
    ∀ {α : Type} {consumed rest : List Value} {c : Exec (World U) α} {outs : α → List Value},
      t.pool.Perm (consumed ++ rest) → Operation w d consumed c outs →
      (∃ a u, c { t.world with fuse := 1 } = .ok a u) ∨
        ∃ u, c { t.world with fuse := 1 } = .panic u := by
  obtain ⟨hown, hcreated, hdropped⟩ := h.run hrun
  exact ⟨hown, fun x hx => World.Owns.count_eq hown hx, hcreated, hdropped,
    fun hpool hop => hown.ends hpool hop⟩

def twoElements : Array Element (.sum (.len 1) (.len 1)) :=
  ⟨⟨⟨[⟨1⟩], rfl⟩, ⟨[⟨2⟩], rfl⟩⟩⟩

/-- Two elements are built and then dropped, where the destructor of the first panics and
the second is dropped while unwinding. -/
theorem ownership_conserved_unwinding :
    ∃ t : State Unit, Relation.ReflTransGen (Step 64 Destructor.mayPanic) ⟨[], 0, 0, 0, 0, ()⟩ t ∧
      t.world.dropped = {⟨2⟩, ⟨1⟩} ∧ t.Owns ∧
      ∀ x ∈ t.world.created,
        (total owned t.pool).count x + t.world.held.count x + t.world.dropped.count x = 1 := by
  have hnothing : ([] : List Value).Perm ([] ++ []) := .refl _
  have hbuild : Step 64 Destructor.mayPanic ⟨[], 0, 0, 0, 0, ()⟩
      ⟨[.of twoElements], {⟨2⟩, ⟨1⟩}, 0, 0, 1, ()⟩ :=
    .returns hnothing (.fromFn _ fun _ => World.conserves_create) rfl
  have hdrop : Step 64 Destructor.mayPanic ⟨[.of twoElements], {⟨2⟩, ⟨1⟩}, 0, 0, 1, ()⟩
      ⟨[], {⟨2⟩, ⟨1⟩}, 0, {⟨2⟩, ⟨1⟩}, 0, ()⟩ :=
    .unwinds (.refl _) (.drop twoElements) rfl
  have hrun := Relation.ReflTransGen.refl.tail hbuild |>.tail hdrop
  obtain ⟨hown, hcount, -⟩ := ownership_conserved ⟨rfl, Multiset.nodup_zero⟩ hrun
  exact ⟨_, hrun, rfl, hown, hcount⟩

end ConstArray
