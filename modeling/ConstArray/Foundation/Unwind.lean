import Mathlib.Logic.Basic
import Mathlib.Tactic.Basic

/-! # Computations that may unwind

A computation runs user code over a world `σ` and returns, panics, aborts the
process or runs into undefined behaviour. The world after a panic is the one at
the point of the panic; destructors that run while unwinding are part of the
computation, and a second panic during unwinding aborts.
-/

namespace ConstArray.Foundation

/-- How a computation ends, with the world it leaves behind. -/
inductive Outcome (σ α : Type) where
  | ok (a : α) (s : σ)
  | panic (s : σ)
  | abort
  | ub
  deriving DecidableEq, Repr

/-- Go on with the value and the world of a computation that returned. -/
def Outcome.bind {σ α β : Type} (r : Outcome σ α) (k : α → σ → Outcome σ β) : Outcome σ β :=
  match r with
  | ok a s => k a s
  | panic s => .panic s
  | abort => .abort
  | ub => .ub

/-- A computation over the world `σ`. -/
def Exec (σ α : Type) : Type := σ → Outcome σ α

namespace Exec

variable {σ α β L : Type}

def bind (c : Exec σ α) (k : α → Exec σ β) : Exec σ β := fun s => (c s).bind k

instance : Monad (Exec σ) where
  pure a := fun s => .ok a s
  bind := bind

instance : LawfulMonad (Exec σ) := LawfulMonad.mk' _
  (fun c => by
    funext s
    change (c s).bind _ = c s
    cases c s <;> rfl)
  (fun _ _ => rfl)
  (fun c k l => by
    funext s
    change ((c s).bind k).bind l = (c s).bind fun a => bind (k a) l
    cases c s <;> rfl)

@[simp] theorem pure_apply (a : α) (s : σ) : (pure a : Exec σ α) s = .ok a s := rfl

theorem bind_apply (c : Exec σ α) (k : α → Exec σ β) (s : σ) :
    (c >>= k) s = match c s with
      | .ok a s' => k a s'
      | .panic s' => .panic s'
      | .abort => .abort
      | .ub => .ub := rfl

theorem bind_of_ok {c : Exec σ α} {s t : σ} {a : α} (h : c s = .ok a t) (k : α → Exec σ β) :
    (c >>= k) s = k a t := by
  rw [bind_apply, h]

/-- What follows depends on the outcome only. -/
theorem bind_apply_congr {c d : Exec σ α} {s s' : σ} (h : c s = d s') (k : α → Exec σ β) :
    (c >>= k) s = (d >>= k) s' :=
  congrArg (Outcome.bind · k) h

theorem bind_eq_ok {c : Exec σ α} {k : α → Exec σ β} {s t : σ} {b : β} :
    (c >>= k) s = .ok b t ↔ ∃ a s', c s = .ok a s' ∧ k a s' = .ok b t := by
  rw [bind_apply]
  cases c s <;> grind

theorem map_apply (f : α → β) (c : Exec σ α) (s : σ) :
    (f <$> c) s = match c s with
      | .ok a s' => .ok (f a) s'
      | .panic s' => .panic s'
      | .abort => .abort
      | .ub => .ub := rfl

theorem map_eq_ok {f : α → β} {c : Exec σ α} {s t : σ} {b : β} :
    (f <$> c) s = .ok b t ↔ ∃ a, c s = .ok a t ∧ f a = b := by
  rw [map_apply]
  cases c s <;> grind

def panic : Exec σ α := fun s => .panic s

def abort : Exec σ α := fun _ => .abort

def ub : Exec σ α := fun _ => .ub

@[simp] theorem panic_bind (k : α → Exec σ β) : (panic >>= k) = panic := rfl

/-- `Option::unwrap`. -/
def unwrap : Option α → Exec σ α
  | some a => pure a
  | none => panic

/-- A read that must succeed: a failure is undefined behaviour. -/
def ofOption : Option α → Exec σ α
  | some a => pure a
  | none => ub

@[simp] theorem unwrap_some (a : α) : (unwrap (some a) : Exec σ α) = pure a := rfl
@[simp] theorem unwrap_none : (unwrap none : Exec σ α) = panic := rfl
@[simp] theorem ofOption_some (a : α) : (ofOption (some a) : Exec σ α) = pure a := rfl

theorem ofOption_eq_ok {o : Option α} {s t : σ} {a : α} :
    ofOption o s = .ok a t ↔ o = some a ∧ t = s := by
  cases o with
  | some b => exact ⟨fun h => by cases h; exact ⟨rfl, rfl⟩, by rintro ⟨⟨⟩, rfl⟩; rfl⟩
  | none => exact ⟨nofun, nofun⟩

/-! ## Unwinding -/

/-- Run a destructor while unwinding. A panic there aborts. -/
def unwind (cleanup : Exec σ Unit) : Exec σ α := fun s =>
  match cleanup s with
  | .ok _ s' => .panic s'
  | .panic _ => .abort
  | .abort => .abort
  | .ub => .ub

/-- Run `c`, and the destructor of a local that is live across it if `c`
panics. -/
def onUnwind (c : Exec σ α) (cleanup : Exec σ Unit) : Exec σ α := fun s =>
  match c s with
  | .ok a s' => .ok a s'
  | .panic s' => unwind cleanup s'
  | .abort => .abort
  | .ub => .ub

/-- Run `c`, then drop the locals of its scope, also when `c` panics. If a local
panics, the value about to be returned is dropped while unwinding. -/
def inScope (c : Exec σ α) (locals : Exec σ Unit) (dropResult : α → Exec σ Unit) :
    Exec σ α := do
  let a ← c.onUnwind locals
  locals.onUnwind (dropResult a)
  return a

/-- The same computation in a scope with a local `L` that it does not touch. -/
def lift (c : Exec σ α) : Exec (L × σ) α := fun s =>
  match c s.2 with
  | .ok a s' => .ok a (s.1, s')
  | .panic s' => .panic (s.1, s')
  | .abort => .abort
  | .ub => .ub

/-- Run `c` with a local that it may modify, and drop the local when `c`
returns or panics. -/
def withLocal (init : L) (c : Exec (L × σ) α) (dropLocal : L → Exec σ Unit)
    (dropResult : α → Exec σ Unit) : Exec σ α := fun s =>
  match c (init, s) with
  | .ok a (l, s') => ((dropLocal l).onUnwind (dropResult a) >>= fun _ => pure a) s'
  | .panic (l, s') => unwind (dropLocal l) s'
  | .abort => .abort
  | .ub => .ub

theorem unwind_bind (cleanup : Exec σ Unit) (k : α → Exec σ β) :
    (unwind cleanup >>= k) = unwind cleanup := by
  funext s
  rw [bind_apply, unwind, unwind]
  cases cleanup s <;> rfl

/-- A call with a guarded local, and what follows it. -/
theorem onUnwind_bind_apply (c : Exec σ α) (cleanup : Exec σ Unit) (k : α → Exec σ β) (s : σ) :
    (c.onUnwind cleanup >>= k) s = match c s with
      | .ok a s' => k a s'
      | .panic s' => unwind cleanup s'
      | .abort => .abort
      | .ub => .ub := by
  rw [bind_apply, onUnwind]
  cases c s with
  | panic s' => exact congrFun (unwind_bind cleanup k) s'
  | _ => rfl

theorem unwind_eq_panic {cleanup : Exec σ Unit} {s t : σ} :
    (unwind cleanup : Exec σ α) s = .panic t ↔ cleanup s = .ok () t := by
  rw [unwind]
  cases cleanup s <;> grind

theorem onUnwind_bind_ok {c : Exec σ α} {cleanup : Exec σ Unit} {k : α → Exec σ β} {s t : σ}
    {a : α} (h : c s = .ok a t) : (c.onUnwind cleanup >>= k) s = k a t := by
  rw [onUnwind_bind_apply, h]

theorem onUnwind_bind_panic {c : Exec σ α} {cleanup : Exec σ Unit} {k : α → Exec σ β} {s t : σ}
    (h : c s = .panic t) : (c.onUnwind cleanup >>= k) s = unwind cleanup t := by
  rw [onUnwind_bind_apply, h]

/-- Unwinding never ends with a value. -/
theorem unwind_ne_ok (cleanup : Exec σ Unit) (s t : σ) (a : α) :
    (unwind cleanup : Exec σ α) s ≠ .ok a t := by
  rw [unwind]
  cases cleanup s <;> nofun

/-- Where a call returns, its cleanup plays no part. -/
theorem onUnwind_bind_eq_ok {c : Exec σ α} {cleanup : Exec σ Unit} {k : α → Exec σ β}
    {s t : σ} {b : β} :
    (c.onUnwind cleanup >>= k) s = .ok b t ↔ ∃ a s', c s = .ok a s' ∧ k a s' = .ok b t := by
  rw [onUnwind_bind_apply]
  cases c s <;> grind [unwind_ne_ok]

/-- A panic comes from what follows the call, or from the call, if the cleanup
returns. -/
theorem onUnwind_bind_eq_panic {c : Exec σ α} {cleanup : Exec σ Unit} {k : α → Exec σ β}
    {s t : σ} :
    (c.onUnwind cleanup >>= k) s = .panic t ↔
      (∃ s', c s = .panic s' ∧ cleanup s' = .ok () t) ∨
        ∃ a s', c s = .ok a s' ∧ k a s' = .panic t := by
  rw [onUnwind_bind_apply]
  cases c s <;> grind [unwind_eq_panic]

theorem inScope_apply (c : Exec σ α) (locals : Exec σ Unit) (dropResult : α → Exec σ Unit)
    (s : σ) :
    inScope c locals dropResult s = match c s with
      | .ok a s' => (locals.onUnwind (dropResult a) >>= fun _ => pure a) s'
      | .panic s' => unwind locals s'
      | .abort => .abort
      | .ub => .ub := onUnwind_bind_apply _ _ _ s

theorem inScope_apply_congr {c d : Exec σ α} {s s' : σ} (h : c s = d s') (locals : Exec σ Unit)
    (dropResult : α → Exec σ Unit) :
    inScope c locals dropResult s = inScope d locals dropResult s' := by
  rw [inScope_apply, inScope_apply, h]

/-- A scope is left by returning when its computation and its locals return. -/
theorem inScope_eq_ok {c : Exec σ α} {locals : Exec σ Unit} {dropResult : α → Exec σ Unit}
    {s t : σ} {a : α} :
    inScope c locals dropResult s = .ok a t ↔ ∃ s', c s = .ok a s' ∧ locals s' = .ok () t := by
  rw [inScope, onUnwind_bind_eq_ok]
  simp only [onUnwind_bind_eq_ok, pure_apply]
  grind

/-- A scope is left by a panic of its computation, or of its locals. -/
theorem inScope_eq_panic {c : Exec σ α} {locals : Exec σ Unit} {dropResult : α → Exec σ Unit}
    {s t : σ} :
    inScope c locals dropResult s = .panic t ↔
      (∃ s', c s = .panic s' ∧ locals s' = .ok () t) ∨
        ∃ a s' s'', c s = .ok a s' ∧ locals s' = .panic s'' ∧ dropResult a s'' = .ok () t := by
  rw [inScope, onUnwind_bind_eq_panic]
  simp only [onUnwind_bind_eq_panic, pure_apply]
  grind

/-- Run `c` on a part of the local. -/
def zoom {M : Type} (view : M → L) (update : M → L → M) (c : Exec (L × σ) α) :
    Exec (M × σ) α := fun s =>
  match c (view s.1, s.2) with
  | .ok a (l, s') => .ok a (update s.1 l, s')
  | .panic (l, s') => .panic (update s.1 l, s')
  | .abort => .abort
  | .ub => .ub

/-- The local. -/
def get : Exec (L × σ) L := fun s => .ok s.1 s

/-- Replace the local. -/
def put (l : L) : Exec (L × σ) Unit := fun s => .ok () (l, s.2)

@[simp] theorem get_apply (s : L × σ) : (get : Exec (L × σ) L) s = .ok s.1 s := rfl

/-- Run `c` with a local without destructor that it may modify, and go on with the
local. A panic of `c` ends its life. -/
def letMut (init : L) (c : Exec (L × σ) α) : Exec σ (α × L) := fun s =>
  match c (init, s) with
  | .ok a (l, s') => .ok (a, l) s'
  | .panic (_, s') => .panic s'
  | .abort => .abort
  | .ub => .ub

theorem letMut_of_ok {init l : L} {c : Exec (L × σ) α} {s t : σ} {a : α}
    (h : c (init, s) = .ok a (l, t)) : letMut init c s = .ok (a, l) t := by
  rw [letMut, h]

/-- `catch_unwind`. -/
def catchUnwind (c : Exec σ α) : Exec σ (Option α) := fun s =>
  match c s with
  | .ok a s' => .ok (some a) s'
  | .panic s' => .ok none s'
  | .abort => .abort
  | .ub => .ub

@[simp] theorem onUnwind_pure (a : α) (cleanup : Exec σ Unit) :
    (pure a : Exec σ α).onUnwind cleanup = pure a := rfl

theorem lift_of_ok {c : Exec σ α} {l : L} {s t : σ} {a : α} (h : c s = .ok a t) :
    c.lift (l, s) = .ok a (l, t) := by
  rw [lift, h]

theorem zoom_of_ok {M : Type} {view : M → L} {update : M → L → M} {c : Exec (L × σ) α} {m : M}
    {l : L} {s t : σ} {a : α} (h : c (view m, s) = .ok a (l, t)) :
    c.zoom view update (m, s) = .ok a (update m l, t) := by
  rw [zoom, h]

theorem lift_eq_ok {c : Exec σ α} {s t : L × σ} {a : α} :
    c.lift s = .ok a t ↔ c s.2 = .ok a t.2 ∧ t.1 = s.1 := by
  rw [lift]
  cases c s.2 <;> grind

theorem lift_eq_panic {c : Exec σ α} {s t : L × σ} :
    c.lift s = .panic t ↔ c s.2 = .panic t.2 ∧ t.1 = s.1 := by
  rw [lift]
  cases c s.2 <;> grind

theorem lift_eq_abort {c : Exec σ α} {s : L × σ} : c.lift s = .abort ↔ c s.2 = .abort := by
  rw [lift]
  cases c s.2 <;> simp

theorem lift_eq_ub {c : Exec σ α} {s : L × σ} : c.lift s = .ub ↔ c s.2 = .ub := by
  rw [lift]
  cases c s.2 <;> simp

theorem lift_ofOption (a : Option α) :
    (ofOption a : Exec σ α).lift = (ofOption a : Exec (L × σ) α) := by
  cases a <;> rfl

theorem lift_bind (c : Exec σ α) (k : α → Exec σ β) :
    (c >>= k).lift = (c.lift >>= fun a => (k a).lift : Exec (L × σ) β) := by
  funext s
  rw [bind_apply, lift, lift, bind_apply]
  cases c s.2 <;> rfl

theorem lift_unwind (cleanup : Exec σ Unit) :
    (unwind cleanup : Exec σ α).lift = (unwind cleanup.lift : Exec (L × σ) α) := by
  funext s
  rw [lift, unwind, unwind, lift]
  cases cleanup s.2 <;> rfl

theorem lift_onUnwind (c : Exec σ α) (cleanup : Exec σ Unit) :
    (c.onUnwind cleanup).lift = (c.lift.onUnwind cleanup.lift : Exec (L × σ) α) := by
  funext s
  rw [lift, onUnwind, onUnwind, lift]
  cases c s.2 with
  | panic s' => exact congrFun (lift_unwind cleanup) (s.1, s')
  | _ => rfl

/-- A destructor that does nothing. -/
@[simp] theorem onUnwind_noop (c : Exec σ α) : c.onUnwind (pure ()) = c := by
  funext s
  unfold onUnwind
  cases c s <;> rfl

end Exec

/-! ## Destructors -/

/-- A destructor is safe code: it may panic, but has no undefined behaviour. -/
structure Dtor (σ : Type) where
  run : Exec σ Unit
  ne_ub : ∀ s, run s ≠ .ub

namespace Dtor

variable {σ α β : Type}

@[ext] theorem ext {c d : Dtor σ} (h : c.run = d.run) : c = d := by
  cases c
  cases d
  simp_all

def noop : Dtor σ := ⟨pure (), fun _ => nofun⟩

/-- Drop two values one after the other; a panic of the first does not keep the
second from being dropped. -/
def andThen (c d : Dtor σ) : Dtor σ where
  run := do
    c.run.onUnwind d.run
    d.run
  ne_ub s := by
    have hd := d.ne_ub
    rw [Exec.bind_apply, Exec.onUnwind]
    cases hc : c.run s with
    | ok a s' => exact hd s'
    | panic s' =>
        simp only [Exec.unwind]
        cases h : d.run s' <;> simp_all
    | abort => nofun
    | ub => exact absurd hc (c.ne_ub s)

/-- Drop the elements of a slice in order, all of them even if one panics. -/
def slice (drop : α → Dtor σ) : List α → Dtor σ
  | [] => noop
  | x :: xs => (drop x).andThen (slice drop xs)

/-- Drop a pair. -/
def pair (drop : α → Dtor σ) (drop' : β → Dtor σ) (x : α × β) : Dtor σ :=
  (drop x.1).andThen (drop' x.2)

/-- Drop an optional value. -/
def option (drop : α → Dtor σ) (x : Option α) : Dtor σ := slice drop x.toList

/-- The same destructor next to a local that it does not touch. -/
def lift {L : Type} (d : Dtor σ) : Dtor (L × σ) where
  run := d.run.lift
  ne_ub s := by
    have hd := d.ne_ub s.2
    rw [Exec.lift]
    cases h : d.run s.2 <;> simp_all

theorem andThen_apply (c d : Dtor σ) (s : σ) :
    (c.andThen d).run s = match c.run s with
      | .ok _ s' => d.run s'
      | .panic s' => Exec.unwind d.run s'
      | .abort => .abort
      | .ub => .ub := by
  change (c.run.onUnwind d.run >>= fun _ => d.run) s = _
  rw [Exec.bind_apply, Exec.onUnwind]
  cases hc : c.run s with
  | panic s' =>
      simp only [Exec.unwind]
      cases d.run s' <;> rfl
  | _ => rfl

/-- Unwinding next to a local keeps the local. -/
theorem unwind_lift_apply {L : Type} (d : Dtor σ) (l : L) (s : σ) :
    (Exec.unwind d.lift.run : Exec (L × σ) α) (l, s) = match d.run s with
      | .ok _ s' => .panic (l, s')
      | .panic _ => .abort
      | .abort => .abort
      | .ub => .ub := by
  have hlift : d.lift.run (l, s) = d.run.lift (l, s) := rfl
  rw [Exec.unwind, hlift, Exec.lift]
  cases d.run s <;> rfl

/-- While unwinding, a panic of either destructor aborts. -/
theorem unwind_andThen_apply (c d : Dtor σ) (s : σ) :
    (Exec.unwind (c.andThen d).run : Exec σ α) s = match c.run s with
      | .ok _ s' => Exec.unwind d.run s'
      | .panic _ => .abort
      | .abort => .abort
      | .ub => .ub := by
  rw [Exec.unwind, andThen_apply]
  cases c.run s with
  | panic s' =>
      have hd := d.ne_ub s'
      simp only [Exec.unwind]
      cases h : d.run s' <;> simp_all
  | _ => rfl

@[simp] theorem andThen_noop (c : Dtor σ) : c.andThen noop = c := by
  apply ext
  change (c.run.onUnwind (pure ()) >>= fun _ => pure ()) = c.run
  rw [Exec.onUnwind_noop]
  exact bind_pure_unit

theorem andThen_assoc (c d e : Dtor σ) :
    (c.andThen d).andThen e = c.andThen (d.andThen e) := by
  apply ext
  funext s
  rw [andThen_apply, andThen_apply, andThen_apply]
  cases c.run s with
  | ok a s' => simp only [andThen_apply]
  | panic s' =>
      -- both sides drop what `d` and `e` own; a panic in either aborts
      simp only [Exec.unwind, andThen_apply]
      cases d.run s' with
      | panic s'' =>
          have he := e.ne_ub s''
          cases h : e.run s'' <;> simp_all
      | _ => rfl
  | abort => rfl
  | ub => rfl

theorem lift_andThen {L : Type} (c d : Dtor σ) :
    ((c.andThen d).lift : Dtor (L × σ)) = c.lift.andThen d.lift := by
  apply ext
  change (c.run.onUnwind d.run >>= fun _ => d.run).lift = _
  rw [Exec.lift_bind, Exec.lift_onUnwind]
  rfl

@[simp] theorem slice_nil (drop : α → Dtor σ) : slice drop [] = noop := rfl

@[simp] theorem slice_cons (drop : α → Dtor σ) (x : α) (xs : List α) :
    slice drop (x :: xs) = (drop x).andThen (slice drop xs) := rfl

theorem slice_append (drop : α → Dtor σ) (xs ys : List α) :
    slice drop (xs ++ ys) = (slice drop xs).andThen (slice drop ys) := by
  induction xs with
  | nil => rfl
  | cons x xs ih => rw [List.cons_append, slice_cons, ih, slice_cons, andThen_assoc]

theorem lift_slice {L : Type} (drop : α → Dtor σ) (xs : List α) :
    ((slice drop xs).lift : Dtor (L × σ)) = slice (fun x => (drop x).lift) xs := by
  induction xs with
  | nil => rfl
  | cons x xs ih => rw [slice_cons, lift_andThen, ih, slice_cons]

/-- Dropping slices one by one is dropping the slice of all their elements. -/
theorem slice_flatMap (drop : β → Dtor σ) (f : α → List β) (xs : List α) :
    slice (fun x => slice drop (f x)) xs = slice drop (xs.flatMap f) := by
  induction xs with
  | nil => rfl
  | cons x xs ih => rw [slice_cons, ih, List.flatMap_cons, slice_append]

end Dtor

end ConstArray.Foundation
