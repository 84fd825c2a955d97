import ConstArray.Foundation.SliceLoop

/-! # Postconditions

What a computation ensures when it is run from a given world: one condition on the
value and world it returns, one on the world a panic leaves, and whether it
may end in an abort or in undefined behaviour. With the last two unsatisfiable, the
computation must return. An invariant is a condition that holds again however the
computation is left.
-/

namespace ConstArray.Foundation.Exec

variable {σ α β T E Y : Type}

/-- The outcome of `c` from `s` meets `Q` if it is a value and `R` if it is a panic. -/
def Ensures (c : Exec σ α) (s : σ) (Q : α → σ → Prop) (R : σ → Prop) (crash : Prop) : Prop :=
  match c s with
  | .ok a t => Q a t
  | .panic t => R t
  | .abort => crash
  | .ub => crash

/-- It returns, and what it returns meets `Q`. -/
def Succeeds (c : Exec σ α) (s : σ) (Q : α → σ → Prop) : Prop :=
  c.Ensures s Q (fun _ => False) False

variable {c : Exec σ α} {s : σ} {Q Q' : α → σ → Prop} {R : σ → Prop} {crash : Prop}

theorem Ensures.of_ok {a : α} {t : σ} (h : c s = .ok a t) (hQ : Q a t) :
    c.Ensures s Q R crash := by
  unfold Ensures
  rw [h]
  exact hQ

theorem Succeeds.exists_ok (h : c.Succeeds s Q) : ∃ a t, c s = .ok a t ∧ Q a t := by
  unfold Succeeds Ensures at h
  cases hc : c s with
  | ok a t =>
      rw [hc] at h
      exact ⟨a, t, rfl, h⟩
  | _ =>
      rw [hc] at h
      exact h.elim

theorem Ensures.pure {a : α} (hQ : Q a s) : (pure a : Exec σ α).Ensures s Q R crash := hQ

theorem Ensures.imp {R' : σ → Prop} (h : c.Ensures s Q R crash) (hQ : ∀ a t, Q a t → Q' a t)
    (hR : ∀ t, R t → R' t) : c.Ensures s Q' R' crash := by
  unfold Ensures at h ⊢
  cases hc : c s with
  | ok a t =>
      rw [hc] at h
      exact hQ a t h
  | panic t =>
      rw [hc] at h
      exact hR t h
  | _ =>
      rw [hc] at h
      exact h

theorem Ensures.mono (h : c.Ensures s Q R crash) (hQ : ∀ a t, Q a t → Q' a t) :
    c.Ensures s Q' R crash :=
  h.imp hQ fun _ => id

theorem Ensures.bind {k : α → Exec σ β} {Q : β → σ → Prop}
    (h : c.Ensures s (fun a t => (k a).Ensures t Q R crash) R crash) :
    (c >>= k).Ensures s Q R crash := by
  unfold Ensures at h ⊢
  rw [bind_apply]
  cases hc : c s with
  | ok a t =>
      rw [hc] at h
      exact h
  | _ =>
      rw [hc] at h
      exact h

/-! ## Values -/

/-- Whatever value it returns, from any world, meets `P`. It need not return. -/
def ReturnsOnly (c : Exec σ α) (P : α → Prop) : Prop :=
  ∀ s, c.Ensures s (fun a _ => P a) (fun _ => True) True

variable {P : α → Prop} {k k' : α → Exec σ β}

theorem ReturnsOnly.trivial (c : Exec σ α) : c.ReturnsOnly fun _ => True := by
  intro s
  unfold Ensures
  cases c s with
  | _ => trivial

theorem ReturnsOnly.pure {a : α} (h : P a) : (pure a : Exec σ α).ReturnsOnly P := fun _ => h

theorem ReturnsOnly.bind {Q : β → Prop} (h : c.ReturnsOnly P)
    (hk : ∀ a, P a → (k a).ReturnsOnly Q) : (c >>= k).ReturnsOnly Q :=
  fun s => .bind ((h s).mono fun a t ha => hk a ha t)

/-- Continuations that agree on the returned values give the same computation. -/
theorem ReturnsOnly.bind_congr (h : c.ReturnsOnly P) (hk : ∀ a, P a → k a = k' a) :
    c >>= k = c >>= k' := by
  funext s
  have hs := h s
  unfold Ensures at hs
  rw [bind_apply, bind_apply]
  cases hc : c s with
  | ok a t =>
      rw [hc] at hs
      exact congrFun (hk a hs) t
  | _ => rfl

/-! ## Locals -/

variable {L : Type}

theorem Ensures.get {s : L × σ} {Q : L → L × σ → Prop} {R : L × σ → Prop} (h : Q s.1 s) :
    (get : Exec (L × σ) L).Ensures s Q R crash := h

/-- A computation next to a local that it does not touch. -/
theorem Ensures.lift {s : L × σ} {Q : α → L × σ → Prop} {R : L × σ → Prop}
    (h : c.Ensures s.2 (fun a t => Q a (s.1, t)) (fun t => R (s.1, t)) crash) :
    (c.lift : Exec (L × σ) α).Ensures s Q R crash := by
  unfold Ensures at h ⊢
  rw [Exec.lift]
  cases hc : c s.2 with
  | _ =>
      rw [hc] at h
      exact h

/-- What a computation does with a local that it owns. -/
theorem Ensures.letMut {l : L} {c : Exec (L × σ) α} {s : σ} {Q : α × L → σ → Prop}
    {R : σ → Prop} {crash : Prop}
    (h : c.Ensures (l, s) (fun a t => Q (a, t.1) t.2) (fun t => R t.2) crash) :
    (letMut l c).Ensures s Q R crash := by
  unfold Ensures at h ⊢
  rw [Exec.letMut]
  cases hc : c (l, s) with
  | _ =>
      rw [hc] at h
      exact h

/-! ## Invariants -/

/-- An invariant of the rounds is an invariant of the loop. -/
theorem Ensures.forM {f : T → Exec σ PUnit} {I : σ → Prop}
    (hf : ∀ x s, I s → (f x).Ensures s (fun _ => I) R crash) (xs : List T) (h : I s) :
    (xs.forM f).Ensures s (fun _ => I) R crash := by
  induction xs generalizing s with
  | nil => exact .pure h
  | cons x xs ih => exact .bind ((hf x s h).mono fun _ _ ht => ih ht)

/-- `I` is an invariant of `c`: where it holds, it holds again when `c` returns, and
also when `c` panics. -/
def Preserves (c : Exec σ α) (I : σ → Prop) : Prop :=
  ∀ s, I s → c.Ensures s (fun _ => I) I True

namespace Preserves

variable {I : σ → Prop}

theorem pure (a : α) : (pure a : Exec σ α).Preserves I := fun _ h => h

theorem bind (h : c.Preserves I) (hk : ∀ a, (k a).Preserves I) : (c >>= k).Preserves I :=
  fun s hs => .bind ((h s hs).mono fun a t ht => hk a t ht)

/-- The state survives a panic that is caught, and what catches it does not panic. -/
theorem catchUnwind {s : σ} (h : c.Preserves I) (hs : I s) :
    c.catchUnwind.Ensures s (fun _ => I) (fun _ => False) True := by
  have hc := h s hs
  unfold Ensures at hc ⊢
  rw [Exec.catchUnwind]
  cases hcs : c s with
  | _ =>
      rw [hcs] at hc
      exact hc

/-- An invariant of the body is an invariant of the loop, also when it is left
early. -/
theorem tryForZip {body : T → Y → Exec σ (Except E T)} (hbody : ∀ x y, (body x y).Preserves I)
    {n : Nat} (slice : List.Vector T n) (ys : List Y) :
    (tryForZip body slice ys).Preserves I := by
  induction n generalizing ys with
  | zero => exact pure _
  | succ n ih =>
      cases ys with
      | nil => exact pure _
      | cons y ys =>
          unfold Foundation.tryForZip
          refine (hbody slice.head y).bind ?_
          rintro (_ | x)
          · exact pure _
          · refine (ih slice.tail ys).bind ?_
            rintro (_ | rest)
            · exact pure _
            · exact pure _

end Preserves

end ConstArray.Foundation.Exec
