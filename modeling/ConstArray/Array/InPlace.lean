import ConstArray.Array.Total
import ConstArray.Foundation.InPlace

/-! # Arrays updated in place

`zip_mut_with` and `clone_from` go through the elements of an array that stays with its
owner. If they unwind, the array is left with some of its elements updated.
-/

namespace ConstArray

open Foundation

variable {σ X Y : Type} {S : ConcreteSize}

namespace Array

/-- `<[T]>::clone_from_slice`. Slices of different lengths panic. -/
def cloneFromSlice (cloneFromElem : X → Exec (X × σ) Unit) {n : Nat} (src : List X) :
    Exec (List.Vector X n × σ) Unit :=
  if n = src.length then Exec.zipMut cloneFromElem src else Exec.panic

/-- `Array::clone_from`. -/
def cloneFrom (cloneFromElem : X → Exec (X × σ) Unit) (source : Array X S) :
    Exec (Array X S × σ) Unit :=
  (cloneFromSlice cloneFromElem source.flat).zoom toVector fun _ slice => ofVector slice

/-- `Array::zip_mut_with`. -/
def zipMutWith (f : Y → Exec (X × σ) Unit) (other : Array Y S) : Exec (Array X S × σ) Unit :=
  (Exec.zipMut f other.flat).zoom toVector fun _ slice => ofVector slice

/-- `clone_from_slice` does not panic here, so `clone_from` is such a loop too. -/
theorem cloneFrom_eq (cloneFromElem : X → Exec (X × σ) Unit) (source : Array X S) :
    cloneFrom cloneFromElem source = zipMutWith cloneFromElem source := by
  rw [cloneFrom, cloneFromSlice, if_pos source.length_flat.symm, zipMutWith]

theorem zipMutWith_rounds (f : Y → Exec (X × σ) Unit) (a : Array X S) (other : Array Y S)
    (s : σ) : Exec.Rounds f flat a other.flat s (zipMutWith f other (a, s)) :=
  (Exec.zipMut_rounds f a.toVector other.length_flat s).zoom (toList_toVector a) flat_ofVector

/-! ## Agreement with the operations that build -/

/-- The update `*x = g(x, y)`. -/
def replaceWith (drop : X → Dtor σ) (g : X → Y → Exec σ X) (y : Y) : Exec (X × σ) Unit := do
  Exec.assign drop (← (g (← Exec.get) y).lift)

/-- The default of `Clone::clone_from`, `*self = source.clone()`. -/
def cloneFromElem (drop : X → Dtor σ) (cloneElem : X → Exec σ X) (source : X) :
    Exec (X × σ) Unit := do
  Exec.assign drop (← (cloneElem source).lift)

/-- The call of `replaceWith`, after which the element it read is dropped. -/
def replacing (drop : X → Dtor σ) (g : X → Y → Exec σ X) (x : X) (y : Y) : Exec σ X := do
  let z ← g x y
  (drop x).run
  return z

@[simp] theorem replacing_noop (g : X → Y → Exec σ X) : replacing (fun _ => .noop) g = g := by
  funext x y
  exact bind_pure (g x y)

theorem assign_eq_ok {drop : X → Dtor σ} {x z x' : X} {s t : σ} :
    Exec.assign drop z (x, s) = .ok () (x', t) ↔ (drop x).run s = .ok () t ∧ z = x' := by
  rw [Exec.assign, Exec.bind_apply, Exec.get_apply]
  dsimp only
  rw [Exec.bind_apply]
  dsimp only [Exec.put, Exec.lift]
  cases (drop x).run s <;> simp [and_comm]

theorem replaceWith_eq_ok {drop : X → Dtor σ} {g : X → Y → Exec σ X} {x x' : X} {y : Y}
    {s t : σ} : replaceWith drop g y (x, s) = .ok () (x', t) ↔
      replacing drop g x y s = .ok x' t := by
  rw [replaceWith, Exec.bind_apply, Exec.get_apply]
  dsimp only
  rw [Exec.bind_apply, Exec.lift, replacing, Exec.bind_apply]
  cases g x y s with
  | ok z u =>
      dsimp only
      rw [assign_eq_ok, Exec.bind_apply]
      cases (drop x).run u <;> simp [and_comm]
  | _ => simp

/-- Updates that replace the elements leave the results of their calls. -/
theorem updates_replaceWith {drop : X → Dtor σ} {g : X → Y → Exec σ X} {xs zs : List X}
    {ys : List Y} {s t : σ} :
    Exec.Updates (replaceWith drop g) xs ys s zs t ↔ xs.length = ys.length ∧
      Exec.Returns ((List.zipWith (replacing drop g) xs ys).map Exec.infallible) zs s t := by
  induction xs generalizing ys zs s with
  | nil =>
      constructor
      · intro h
        cases h
        exact ⟨rfl, .nil _⟩
      · rintro ⟨hlength, h⟩
        obtain rfl := List.length_eq_zero_iff.mp hlength.symm
        cases h
        exact .nil _
  | cons x xs ih =>
      constructor
      · intro h
        cases h with
        | cons hx hrest =>
            obtain ⟨hlength, hrest⟩ := ih.mp hrest
            exact ⟨congrArg (· + 1) hlength,
              .cons (Exec.infallible_eq_ok.mpr (replaceWith_eq_ok.mp hx)) hrest⟩
      · rintro ⟨hlength, h⟩
        obtain ⟨y, ys, rfl⟩ := List.exists_cons_of_length_eq_add_one hlength.symm
        cases h with
        | cons hx hrest =>
            exact .cons (replaceWith_eq_ok.mpr (Exec.infallible_eq_ok.mp hx))
              (ih.mpr ⟨Nat.succ.inj hlength, hrest⟩)

/-- What a builder returns are the values of its calls. -/
theorem traverse_eq_ok (drop : X → Dtor σ) {cs : List (Exec σ X)} {c : Array X S} {s t : σ} :
    (do Exec.ofOption (ofFlat S (← Exec.traverse drop cs [])) : Exec σ _) s = .ok c t ↔
      Exec.Returns (cs.map Exec.infallible) c.flat s t := by
  rw [Exec.bind_eq_ok]
  simp only [Exec.traverse_eq_ok, Exec.ofOption_eq_ok, ofFlat_eq_some, List.nil_append]
  constructor
  · rintro ⟨_, _, ⟨_, hreturns, rfl⟩, rfl, rfl⟩
    exact hreturns
  · intro hreturns
    exact ⟨c.flat, t, ⟨c.flat, hreturns, rfl⟩, rfl, rfl⟩

/-- A loop that returns has updated every element. -/
theorem zipMutWith_eq_ok {f : Y → Exec (X × σ) Unit} {a c : Array X S} {other : Array Y S}
    {s t : σ} : zipMutWith f other (a, s) = .ok () (c, t) ↔
      Exec.Updates f a.flat other.flat s c.flat t := by
  constructor
  · intro h
    have hrounds := zipMutWith_rounds f a other s
    rw [h] at hrounds
    cases hrounds with
    | returned hupdates => exact hupdates
  · intro h
    have hloop : Exec.zipMut f other.flat (a.toVector, s) = .ok () (c.toVector, t) :=
      Exec.Updates.zipMut_eq h
    rw [zipMutWith, Exec.zoom_of_ok hloop, ofVector_toVector]

theorem zipMutWith_eq_zipWith (drop dropNew : X → Dtor σ) {g : X → Y → Exec σ X}
    {a c : Array X S} {b : Array Y S} {s t : σ} :
    zipMutWith (replaceWith drop g) b (a, s) = .ok () (c, t) ↔
      a.zipWith dropNew (replacing drop g) b s = .ok c t := by
  rw [zipMutWith_eq_ok, updates_replaceWith, zipWith_eq, traverse_eq_ok]
  simp

theorem cloneFrom_eq_zipWith (drop dropNew : X → Dtor σ) {cloneElem : X → Exec σ X}
    {a c source : Array X S} {s t : σ} :
    cloneFrom (cloneFromElem drop cloneElem) source (a, s) = .ok () (c, t) ↔
      a.zipWith dropNew (replacing drop fun _ => cloneElem) source s = .ok c t := by
  have hreplace : cloneFromElem drop cloneElem = replaceWith drop fun _ => cloneElem := rfl
  rw [cloneFrom_eq, hreplace, zipMutWith_eq_zipWith drop dropNew]

/-- A `zip_with` that ignores the elements of the array is a `clone` of the other. -/
theorem zipWith_clone (dropNew : X → Dtor σ) (cloneElem : X → Exec σ X)
    (a source : Array X S) :
    a.zipWith dropNew (fun _ => cloneElem) source = source.clone dropNew cloneElem := by
  have hcalls : List.zipWith (fun _ => cloneElem) a.flat source.flat =
      source.flat.map cloneElem := by
    have hsource : (a.flat.zip source.flat).map Prod.snd = source.flat :=
      List.map_snd_zip (by simp)
    rw [← List.map_uncurry_zip_eq_zipWith, ← hsource, List.map_map, hsource]
    rfl
  rw [zipWith_eq, hcalls, clone_eq]

/-- `zip_mut_with` and `clone_from` run their calls in order, each on an element and its
partner. A call that unwinds leaves the elements before it updated and those after it as
they were. What they leave when they return is what `zip_with` returns for the same calls, each
followed by the drop of the element it replaces, and where these drops do nothing, a `clone_from`
leaves what `clone` returns. -/
theorem updates_in_place :
    (∀ (f : Y → Exec (X × σ) Unit) (a : Array X S) (other : Array Y S) (s : σ),
      Exec.Rounds f flat a other.flat s (zipMutWith f other (a, s))) ∧
    (∀ (f : X → Exec (X × σ) Unit) (a source : Array X S) (s : σ),
      Exec.Rounds f flat a source.flat s (cloneFrom f source (a, s))) ∧
    (∀ (drop dropNew : X → Dtor σ) (g : X → Y → Exec σ X) (a c : Array X S) (b : Array Y S)
      (s t : σ),
      zipMutWith (replaceWith drop g) b (a, s) = .ok () (c, t) ↔
        a.zipWith dropNew (replacing drop g) b s = .ok c t) ∧
    (∀ (drop dropNew : X → Dtor σ) (cloneElem : X → Exec σ X) (a c source : Array X S)
      (s t : σ),
      cloneFrom (cloneFromElem drop cloneElem) source (a, s) = .ok () (c, t) ↔
        a.zipWith dropNew (replacing drop fun _ => cloneElem) source s = .ok c t) ∧
    (∀ (dropNew : X → Dtor σ) (g : X → Y → Exec σ X) (a c : Array X S) (b : Array Y S)
      (s t : σ),
      zipMutWith (replaceWith (fun _ => .noop) g) b (a, s) = .ok () (c, t) ↔
        a.zipWith dropNew g b s = .ok c t) ∧
    ∀ (dropNew : X → Dtor σ) (cloneElem : X → Exec σ X) (a c source : Array X S) (s t : σ),
      cloneFrom (cloneFromElem (fun _ => .noop) cloneElem) source (a, s) = .ok () (c, t) ↔
        source.clone dropNew cloneElem s = .ok c t := by
  refine ⟨zipMutWith_rounds, fun f a source s => ?_, ?_, ?_, ?_, ?_⟩
  · rw [cloneFrom_eq]
    exact zipMutWith_rounds f a source s
  · intro drop dropNew g a c b s t
    exact zipMutWith_eq_zipWith drop dropNew
  · intro drop dropNew cloneElem a c source s t
    exact cloneFrom_eq_zipWith drop dropNew
  · intro dropNew g a c b s t
    rw [zipMutWith_eq_zipWith _ dropNew, replacing_noop]
  · intro dropNew cloneElem a c source s t
    rw [cloneFrom_eq_zipWith _ dropNew, replacing_noop, zipWith_clone]

end Array

end ConstArray
