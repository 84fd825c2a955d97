import ConstArray.Foundation.Ownership
import Mathlib.Data.Vector.Basic

/-! # Updates in place

A place that outlives a computation is a local next to its world: what was written to it
stays written when the computation panics. A loop over a mutable slice works on one
element of it after the other.
-/

namespace ConstArray.Foundation

variable {σ ι C D X Y : Type}

namespace Exec

/-- `*place = x`. The value that was there is dropped, and `x` is in its place even if
that panics. -/
def assign (drop : X → Dtor σ) (x : X) : Exec (X × σ) Unit := do
  let old ← get
  put x
  (drop old).run.lift

/-- `for (x, y) in slice.iter_mut().zip(ys) { f(x, y) }`. -/
def zipMut (f : Y → Exec (X × σ) Unit) : {n : Nat} → List Y → Exec (List.Vector X n × σ) Unit
  | 0, _ => pure ()
  | _ + 1, [] => pure ()
  | _ + 1, y :: ys => do
      (f y).zoom List.Vector.head fun slice x => x ::ᵥ slice.tail
      (zipMut f ys).zoom List.Vector.tail fun slice rest => slice.head ::ᵥ rest

/-! ## The rounds of a loop -/

/-- `f` returns for all pairs, one after the other, and leaves the elements `xs'`. -/
inductive Updates (f : Y → Exec (X × σ) Unit) : List X → List Y → σ → List X → σ → Prop where
  | nil (s : σ) : Updates f [] [] s [] s
  | cons {x x' : X} {xs xs' : List X} {y : Y} {ys : List Y} {s t u : σ}
      (h : f y (x, s) = .ok () (x', t)) (hrest : Updates f xs ys t xs' u) :
      Updates f (x :: xs) (y :: ys) s (x' :: xs') u

/-- How a loop over the elements of a container ends. Where a round panics, the elements
before it are updated, its own is what the round has left, and those after it are as they
were. -/
inductive Rounds (f : Y → Exec (X × σ) Unit) (elems : C → List X) (c : C) (ys : List Y)
    (s : σ) : Outcome (C × σ) Unit → Prop where
  | returned {c' : C} {t : σ} (h : Updates f (elems c) ys s (elems c') t) :
      Rounds f elems c ys s (.ok () (c', t))
  | panicked {before before' after : List X} {x x' : X} {ysBefore ysAfter : List Y} {y : Y}
      {t u : σ} {c' : C} (hc : elems c = before ++ x :: after)
      (hys : ys = ysBefore ++ y :: ysAfter) (h : Updates f before ysBefore s before' t)
      (hround : f y (x, t) = .panic (x', u)) (hc' : elems c' = before' ++ x' :: after) :
      Rounds f elems c ys s (.panic (c', u))
  | aborted {before before' after : List X} {x : X} {ysBefore ysAfter : List Y} {y : Y} {t : σ}
      (hc : elems c = before ++ x :: after) (hys : ys = ysBefore ++ y :: ysAfter)
      (h : Updates f before ysBefore s before' t) (hround : f y (x, t) = .abort) :
      Rounds f elems c ys s .abort
  | undefined {before before' after : List X} {x : X} {ysBefore ysAfter : List Y} {y : Y}
      {t : σ} (hc : elems c = before ++ x :: after) (hys : ys = ysBefore ++ y :: ysAfter)
      (h : Updates f before ysBefore s before' t) (hround : f y (x, t) = .ub) :
      Rounds f elems c ys s .ub

variable {f : Y → Exec (X × σ) Unit}

/-- A loop over a part of a place is a loop over the place. -/
theorem Rounds.zoom {elems : C → List X} {elemsD : D → List X} {view : D → C}
    {update : D → C → D} {loop : Exec (C × σ) Unit} {d : D} {ys : List Y} {s : σ}
    (hview : elems (view d) = elemsD d) (hupdate : ∀ c, elemsD (update d c) = elems c)
    (h : Rounds f elems (view d) ys s (loop (view d, s))) :
    Rounds f elemsD d ys s (loop.zoom view update (d, s)) := by
  rw [Exec.zoom]
  dsimp only
  generalize loop (view d, s) = r at h
  cases h with
  | @returned c' t h =>
      rw [hview, ← hupdate c'] at h
      exact .returned h
  | panicked hc hys h hround hc' =>
      exact .panicked (hview ▸ hc) hys h hround ((hupdate _).trans hc')
  | aborted hc hys h hround => exact .aborted (hview ▸ hc) hys h hround
  | undefined hc hys h hround => exact .undefined (hview ▸ hc) hys h hround

/-- The parts of a slice behind one more element. -/
theorem toList_cons_eq_append {n : Nat} {rest : List.Vector X n} {before after : List X}
    (h : rest.toList = before ++ after) (x : X) :
    (x ::ᵥ rest).toList = (x :: before) ++ after := by
  rw [List.Vector.toList_cons, h, List.cons_append]

/-- A round that returns, followed by the rest of the loop. -/
theorem Rounds.cons {n : Nat} {x x' : X} {rest : List.Vector X n} {y : Y} {ys : List Y}
    {s t : σ} (h : f y (x, s) = .ok () (x', t)) {loop : Exec (List.Vector X n × σ) Unit}
    (hrest : Rounds f List.Vector.toList rest ys t (loop (rest, t))) :
    Rounds f List.Vector.toList (x ::ᵥ rest) (y :: ys) s
      (loop.zoom List.Vector.tail (fun slice rest => slice.head ::ᵥ rest) (x' ::ᵥ rest, t)) := by
  rw [Exec.zoom]
  dsimp only
  rw [List.Vector.tail_cons]
  generalize loop (rest, t) = r at hrest
  cases hrest with
  | returned hupdates =>
      refine .returned ?_
      rw [List.Vector.head_cons, List.Vector.toList_cons, List.Vector.toList_cons]
      exact .cons h hupdates
  | panicked hc hys hupdates hround hc' =>
      exact .panicked (toList_cons_eq_append hc x) (congrArg (y :: ·) hys) (.cons h hupdates)
        hround (toList_cons_eq_append hc' x')
  | aborted hc hys hupdates hround =>
      exact .aborted (toList_cons_eq_append hc x) (congrArg (y :: ·) hys) (.cons h hupdates)
        hround
  | undefined hc hys hupdates hround =>
      exact .undefined (toList_cons_eq_append hc x) (congrArg (y :: ·) hys) (.cons h hupdates)
        hround

/-- The loop runs its rounds in order, up to the first that does not return. -/
theorem zipMut_rounds (f : Y → Exec (X × σ) Unit) {n : Nat} (slice : List.Vector X n)
    {ys : List Y} (hys : ys.length = n) (s : σ) :
    Rounds f List.Vector.toList slice ys s (zipMut f ys (slice, s)) := by
  induction n generalizing ys s with
  | zero =>
      obtain rfl := List.length_eq_zero_iff.mp hys
      obtain rfl : slice = List.Vector.nil := Subsingleton.elim _ _
      exact .returned (.nil s)
  | succ n ih =>
      obtain ⟨y, ys, rfl⟩ := List.exists_cons_of_length_eq_add_one hys
      obtain ⟨x, rest, rfl⟩ := List.Vector.exists_eq_cons slice
      rw [zipMut, bind_apply, zoom]
      dsimp only
      rw [List.Vector.head_cons, List.Vector.tail_cons]
      cases hround : f y (x, s) with
      | ok a p =>
          obtain ⟨x', t⟩ := p
          exact (ih rest (Nat.succ.inj hys) t).cons hround
      | panic p =>
          exact .panicked (List.Vector.toList_cons x rest) rfl (.nil s) hround
            (List.Vector.toList_cons _ rest)
      | abort => exact .aborted (List.Vector.toList_cons x rest) rfl (.nil s) hround
      | ub => exact .undefined (List.Vector.toList_cons x rest) rfl (.nil s) hround

/-- The loop returns if all its rounds do. -/
theorem Updates.zipMut_eq {n : Nat} {slice slice' : List.Vector X n} {ys : List Y} {s t : σ}
    (h : Updates f slice.toList ys s slice'.toList t) :
    zipMut f ys (slice, s) = .ok () (slice', t) := by
  induction n generalizing ys s with
  | zero =>
      obtain rfl : slice' = slice := Subsingleton.elim _ _
      obtain rfl : slice' = List.Vector.nil := Subsingleton.elim _ _
      cases h
      rfl
  | succ n ih =>
      obtain ⟨x, rest, rfl⟩ := List.Vector.exists_eq_cons slice
      obtain ⟨x', rest', rfl⟩ := List.Vector.exists_eq_cons slice'
      rw [List.Vector.toList_cons, List.Vector.toList_cons] at h
      cases h with
      | cons hround hrest =>
          rw [zipMut, bind_apply, zoom]
          dsimp only
          rw [List.Vector.head_cons, hround]
          dsimp only
          rw [List.Vector.tail_cons, zoom]
          dsimp only
          rw [List.Vector.tail_cons, ih hrest]
          rfl

end Exec

/-! ## Ownership -/

namespace Accounting.Conserves

variable {A : Accounting σ ι} {ids : X → Multiset ι}

/-- The place takes the tokens of the new value, and those of the old one are given back. -/
protected theorem assign {drop : X → Dtor σ}
    (hdrop : ∀ x, A.Conserves (ids x) (drop x).run fun _ => 0) (x : X) :
    (A.besides ids).Conserves (ids x) (Exec.assign drop x) fun _ => 0 := by
  rintro frame ⟨old, s⟩ h
  have hput : (A.besides ids).owns (ids old + frame) (x, s) := by
    change A.owns (ids old + (ids x + frame)) s at h
    change A.owns (ids x + (ids old + frame)) s
    rwa [add_left_comm]
  have hdropped : (A.besides ids).Conserves (ids old) (drop old).run.lift fun _ => 0 :=
    (hdrop old).lift
  exact (hdropped hput).of_later (A.later_refl s)

/-- If each round conserves the tokens, so does the loop. -/
protected theorem zipMut {f : Y → Exec (X × σ) Unit}
    (hf : ∀ y, (A.besides ids).Conserves 0 (f y) fun _ => 0) {n : Nat} (ys : List Y) :
    (A.besides fun slice : List.Vector X n => total ids slice.toList).Conserves 0
      (Exec.zipMut f ys) fun _ => 0 := by
  have htotal {n : Nat} (x : X) (rest : List.Vector X n) :
      total ids (x ::ᵥ rest).toList = ids x + total ids rest.toList := by
    rw [List.Vector.toList_cons, total_cons]
  have htail {n : Nat} (x : X) (rest : List.Vector X n) :
      total ids (x ::ᵥ rest).toList = total ids rest.toList + ids x := by
    rw [htotal, add_comm]
  induction n generalizing ys with
  | zero => exact .pure (a := ()) rfl
  | succ n ih =>
      cases ys with
      | nil => exact .pure (a := ()) rfl
      | cons y ys =>
          have hround : (A.besides fun slice : List.Vector X (n + 1) =>
              total ids slice.toList).Conserves 0
                ((f y).zoom List.Vector.head fun slice x => x ::ᵥ slice.tail) fun _ => 0 := by
            rintro frame ⟨slice, s⟩ h
            obtain ⟨x, rest, rfl⟩ := List.Vector.exists_eq_cons slice
            exact (hf y).zoom_apply (htotal x rest) (fun x' => htotal x' rest) h
          have hrounds : (A.besides fun slice : List.Vector X (n + 1) =>
              total ids slice.toList).Conserves 0
                ((Exec.zipMut f ys).zoom List.Vector.tail fun slice rest => slice.head ::ᵥ rest)
                fun _ => 0 := by
            rintro frame ⟨slice, s⟩ h
            obtain ⟨x, rest, rfl⟩ := List.Vector.exists_eq_cons slice
            exact (ih ys).zoom_apply (htail x rest) (fun rest' => htail x rest') h
          exact hround.bind fun _ => hrounds

end Accounting.Conserves

end ConstArray.Foundation
