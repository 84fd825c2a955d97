import ConstArray.Foundation.Traverse

/-! # Simulations between computations

A computation refines another one if from related worlds they end in the same way,
with related values in related worlds. In particular neither has undefined
behaviour unless the other one does.
-/

namespace ConstArray.Foundation

variable {σ τ α β γ δ L M X : Type}

/-- Outcomes of the same kind, with related values and worlds. -/
inductive Outcome.Rel (R : σ → τ → Prop) (Q : α → β → Prop) :
    Outcome σ α → Outcome τ β → Prop where
  | ok {a : α} {b : β} {s : σ} {t : τ} (hQ : Q a b) (hR : R s t) : Rel R Q (.ok a s) (.ok b t)
  | panic {s : σ} {t : τ} (hR : R s t) : Rel R Q (.panic s) (.panic t)
  | abort : Rel R Q .abort .abort
  | ub : Rel R Q .ub .ub

namespace Exec

/-- From worlds related by `R`, the computations end in the same way. -/
def Refines (R : σ → τ → Prop) (Q : α → β → Prop) (c : Exec σ α) (d : Exec τ β) : Prop :=
  ∀ ⦃s t⦄, R s t → Outcome.Rel R Q (c s) (d t)

/-- Worlds that differ in a local, whose values are related. -/
def Local (H : L → M → Prop) (s : L × σ) (t : M × σ) : Prop := H s.1 t.1 ∧ s.2 = t.2

variable {R : σ → τ → Prop} {Q : α → β → Prop} {P : γ → δ → Prop} {H : L → M → Prop}
  {c : Exec σ α} {d : Exec τ β}

namespace Refines

/-- It is enough to compare the outcomes from one world with related locals. -/
theorem of_local {c : Exec (L × σ) α} {d : Exec (M × σ) β}
    (h : ∀ ⦃l m⦄, H l m → ∀ s, Outcome.Rel (Local H) Q (c (l, s)) (d (m, s))) :
    Refines (Local H) Q c d := by
  rintro ⟨l, s⟩ ⟨m, t⟩ ⟨hH, hst⟩
  cases hst
  exact h hH s

/-- What the one computation does, the other one does. -/
theorem exists_ok {c : Exec (L × σ) α} {d : Exec (M × σ) α} (h : Refines (Local H) Eq c d)
    {l : L} {m m' : M} {s s' : σ} {a : α} (hH : H l m) (hd : d (m, s) = .ok a (m', s')) :
    ∃ l', c (l, s) = .ok a (l', s') ∧ H l' m' := by
  have hlocal : Local H (l, s) (m, s) := ⟨hH, rfl⟩
  have hrel := h hlocal
  rw [hd] at hrel
  generalize c (l, s) = r at hrel
  cases hrel with
  | @ok _ _ t _ hQ hR =>
      obtain ⟨hH', rfl⟩ := hR
      cases hQ
      exact ⟨t.1, rfl, hH'⟩

protected theorem refl (c : Exec σ α) : Refines Eq Eq c c := by
  rintro s _ rfl
  cases c s with
  | ok a s' => exact .ok rfl rfl
  | panic s' => exact .panic rfl
  | abort => exact .abort
  | ub => exact .ub

protected theorem pure {a : α} {b : β} (h : Q a b) :
    Refines R Q (pure a : Exec σ α) (pure b : Exec τ β) := fun _ _ hR => .ok h hR

protected theorem bind {k : α → Exec σ γ} {l : β → Exec τ δ} (hc : Refines R Q c d)
    (hk : ∀ a b, Q a b → Refines R P (k a) (l b)) : Refines R P (c >>= k) (d >>= l) := by
  intro s t hR
  have hrel := hc hR
  rw [bind_apply, bind_apply]
  generalize c s = r, d t = r' at hrel
  cases hrel with
  | ok hQ hR => exact hk _ _ hQ hR
  | panic hR => exact .panic hR
  | abort => exact .abort
  | ub => exact .ub

/-- Both computations go on with the same value. -/
theorem bind_same {c : Exec σ X} {d : Exec τ X} {k : X → Exec σ γ} {l : X → Exec τ δ}
    (hc : Refines R Eq c d) (hk : ∀ x, Refines R P (k x) (l x)) :
    Refines R P (c >>= k) (d >>= l) := by
  refine hc.bind ?_
  rintro x _ rfl
  exact hk x

protected theorem map {f : α → γ} {g : β → δ} (hc : Refines R Q c d)
    (h : ∀ a b, Q a b → P (f a) (g b)) : Refines R P (f <$> c) (g <$> d) := by
  rw [map_eq_pure_bind, map_eq_pure_bind]
  exact hc.bind fun a b hQ => .pure (h a b hQ)

protected theorem unwind {x : Exec σ Unit} {y : Exec τ Unit} (h : Refines R Eq x y) :
    Refines R Q (Exec.unwind x) (Exec.unwind y) := by
  intro s t hR
  have hrel := h hR
  rw [Exec.unwind, Exec.unwind]
  generalize x s = r, y t = r' at hrel
  cases hrel with
  | ok hQ hR => exact .panic hR
  | panic hR => exact .abort
  | abort => exact .abort
  | ub => exact .ub

protected theorem onUnwind {x : Exec σ Unit} {y : Exec τ Unit} (hc : Refines R Q c d)
    (h : Refines R Eq x y) : Refines R Q (c.onUnwind x) (d.onUnwind y) := by
  intro s t hR
  have hrel := hc hR
  rw [Exec.onUnwind, Exec.onUnwind]
  generalize c s = r, d t = r' at hrel
  cases hrel with
  | ok hQ hR => exact .ok hQ hR
  | panic hR => exact h.unwind hR
  | abort => exact .abort
  | ub => exact .ub

protected theorem inScope {x : Exec σ Unit} {y : Exec τ Unit} {dropA : α → Exec σ Unit}
    {dropB : β → Exec τ Unit} (hc : Refines R Q c d) (h : Refines R Eq x y)
    (hdrop : ∀ a b, Q a b → Refines R Eq (dropA a) (dropB b)) :
    Refines R Q (c.inScope x dropA) (d.inScope y dropB) := by
  refine (hc.onUnwind h).bind fun a b hQ => ?_
  exact (h.onUnwind (hdrop a b hQ)).bind fun _ _ _ => .pure hQ

protected theorem slice {drop : X → Dtor σ} {drop' : X → Dtor τ}
    (h : ∀ x, Refines R Eq (drop x).run (drop' x).run) (xs : List X) :
    Refines R Eq (Dtor.slice drop xs).run (Dtor.slice drop' xs).run := by
  induction xs with
  | nil => exact .pure rfl
  | cons x xs ih => exact ((h x).onUnwind ih).bind_same fun _ => ih

protected theorem ofOption (a : Option α) :
    Refines R Eq (Exec.ofOption a : Exec σ α) (Exec.ofOption a : Exec τ α) := by
  cases a with
  | some a => exact .pure rfl
  | none => exact fun _ _ _ => .ub

/-- The calls for the same arguments. -/
theorem forall₂_calls {Y : Type} {f : Y → Exec σ α} {g : Y → Exec τ β}
    (h : ∀ y, Refines R Q (f y) (g y)) (ys : List Y) :
    List.Forall₂ (Refines R Q) (ys.map f) (ys.map g) := by
  rw [List.forall₂_map_left_iff, List.forall₂_map_right_iff, List.forall₂_same]
  exact fun y _ => h y

/-- Traversals refine each other if their computations do. -/
protected theorem traverse {drop : X → Dtor σ} {drop' : X → Dtor τ} {cs : List (Exec σ X)}
    {ds : List (Exec τ X)} (hdrop : ∀ x, Refines R Eq (drop x).run (drop' x).run)
    (h : List.Forall₂ (Refines R Eq) cs ds) (done : List X) :
    Refines R Eq (traverse drop cs done) (traverse drop' ds done) := by
  induction h generalizing done with
  | nil => exact .pure rfl
  | cons hc _ ih =>
      refine (hc.onUnwind (.slice hdrop done)).bind_same ?_
      intro x
      exact ih (done ++ [x])

protected theorem tryTraverse {E : Type} {drop : X → Dtor σ} {drop' : X → Dtor τ}
    {dropErr : E → Dtor σ} {dropErr' : E → Dtor τ} {cs : List (Exec σ (Except E X))}
    {ds : List (Exec τ (Except E X))} (hdrop : ∀ x, Refines R Eq (drop x).run (drop' x).run)
    (hdropErr : ∀ e, Refines R Eq (dropErr e).run (dropErr' e).run)
    (h : List.Forall₂ (Refines R Eq) cs ds) (done : List X) :
    Refines R Eq (tryTraverse drop dropErr cs done) (tryTraverse drop' dropErr' ds done) := by
  induction h generalizing done with
  | nil => exact .pure rfl
  | cons hc _ ih =>
      refine (hc.onUnwind (.slice hdrop done)).bind_same ?_
      intro r
      cases r with
      | ok x => exact ih (done ++ [x])
      | error e =>
          exact ((Refines.slice hdrop done).onUnwind (hdropErr e)).bind_same fun _ => .pure rfl

/-- Computations that do not touch the local. -/
protected theorem liftBoth {c : Exec σ α} {d : Exec σ β} (hc : Refines Eq Q c d) :
    Refines (Local H) Q (c.lift : Exec (L × σ) α) (d.lift : Exec (M × σ) β) := by
  refine of_local fun l m hH s => ?_
  have hrel := hc (rfl : s = s)
  rw [Exec.lift, Exec.lift]
  generalize c s = r, d s = r' at hrel
  cases hrel with
  | ok hQ hR => exact .ok hQ ⟨hH, hR⟩
  | panic hR => exact .panic ⟨hH, hR⟩
  | abort => exact .abort
  | ub => exact .ub

protected theorem lift (c : Exec σ α) : Refines (Local H) Eq (c.lift : Exec (L × σ) α) c.lift :=
  .liftBoth (.refl c)

/-- A local that is not touched may be left out. -/
theorem forgetLocal (c : Exec σ α) :
    Refines (fun (s : L × σ) t => s.2 = t) Eq (c.lift : Exec (L × σ) α) c := by
  rintro s _ rfl
  rw [Exec.lift]
  cases c s.2 with
  | ok a t => exact .ok rfl rfl
  | panic t => exact .panic rfl
  | abort => exact .abort
  | ub => exact .ub

protected theorem catchUnwind {d : Exec τ α} (hc : Refines R Eq c d) :
    Refines R Eq c.catchUnwind d.catchUnwind := by
  intro s t hR
  have hrel := hc hR
  rw [Exec.catchUnwind, Exec.catchUnwind]
  generalize c s = r, d t = r' at hrel
  cases hrel with
  | ok hQ hR => exact .ok (congrArg some hQ) hR
  | panic hR => exact .ok rfl hR
  | abort => exact .abort
  | ub => exact .ub

protected theorem get : Refines (Local H) H (get : Exec (L × σ) L) get :=
  fun _ _ hR => .ok hR.1 hR

protected theorem put {l : L} {m : M} (h : H l m) :
    Refines (Local H) Eq (put l : Exec (L × σ) Unit) (put m) := fun _ _ hR => .ok rfl ⟨h, hR.2⟩

/-- A computation on parts of related locals. -/
protected theorem zoom {L' M' : Type} {H' : L' → M' → Prop} {c : Exec (L × σ) α}
    {d : Exec (M × σ) β} {view : L' → L} {view' : M' → M} {update : L' → L → L'}
    {update' : M' → M → M'} (hc : Refines (Local H) Q c d)
    (hview : ∀ l m, H' l m → H (view l) (view' m))
    (hupdate : ∀ l m x y, H' l m → H x y → H' (update l x) (update' m y)) :
    Refines (Local H') Q (c.zoom view update) (d.zoom view' update') := by
  refine of_local fun l m hH s => ?_
  have hrel := hc (s := (view l, s)) (t := (view' m, s)) ⟨hview l m hH, rfl⟩
  rw [Exec.zoom, Exec.zoom]
  generalize c (view l, s) = r, d (view' m, s) = r' at hrel
  cases hrel with
  | ok hQ hR => exact .ok hQ ⟨hupdate l m _ _ hH hR.1, hR.2⟩
  | panic hR => exact .panic ⟨hupdate l m _ _ hH hR.1, hR.2⟩
  | abort => exact .abort
  | ub => exact .ub

/-- A local may be replaced by a related one. -/
protected theorem withLocal {c : Exec (L × σ) α} {d : Exec (M × σ) α} {init : L} {init' : M}
    {dropLocal : L → Exec σ Unit} {dropLocal' : M → Exec σ Unit} (hinit : H init init')
    (hc : Refines (Local H) Eq c d) (hdrop : ∀ l m, H l m → dropLocal l = dropLocal' m)
    (dropResult : α → Exec σ Unit) :
    Exec.withLocal init c dropLocal dropResult =
      Exec.withLocal init' d dropLocal' dropResult := by
  funext s
  have hrel := hc (s := (init, s)) (t := (init', s)) ⟨hinit, rfl⟩
  rw [Exec.withLocal, Exec.withLocal]
  generalize c (init, s) = r, d (init', s) = r' at hrel
  cases hrel with
  | @ok a b s t hQ hR =>
      obtain ⟨hH, hst⟩ := hR
      cases hQ
      dsimp only
      rw [hdrop _ _ hH, hst]
  | @panic s t hR =>
      obtain ⟨hH, hst⟩ := hR
      dsimp only
      rw [hdrop _ _ hH, hst]
  | abort => rfl
  | ub => rfl

end Refines

end Exec

end ConstArray.Foundation
