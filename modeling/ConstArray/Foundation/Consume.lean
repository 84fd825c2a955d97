import ConstArray.Foundation.Deque

/-! # Traversals that consume their source

A traversal may take the values it works on from a source that it owns. When it
unwinds, the results so far are dropped first and then what is left of the source.
-/

namespace ConstArray.Foundation

variable {σ L X Y β : Type}

namespace Exec

/-- Run `f` on values in order, which it takes by value. -/
def mapOwned (dropX : X → Dtor σ) (dropY : Y → Dtor σ) (f : X → Exec σ Y) :
    List X → List Y → Exec σ (List Y)
  | [], done => pure done
  | x :: xs, done => do
      let y ← (f x).onUnwind ((Dtor.slice dropY done).andThen (Dtor.slice dropX xs)).run
      mapOwned dropX dropY f xs (done ++ [y])

/-- A traversal of calls that do nothing else. -/
theorem mapOwned_pure (dropX : X → Dtor σ) (dropY : Y → Dtor σ) {f : X → Exec σ Y}
    {xs : List X} {ys : List Y} (h : List.Forall₂ (fun x y => f x = pure y) xs ys)
    (done : List Y) : mapOwned dropX dropY f xs done = pure (done ++ ys) := by
  induction h generalizing done with
  | nil => rw [mapOwned, List.append_nil]
  | cons hx _ ih =>
      rw [mapOwned, hx, onUnwind_pure, pure_bind, ih, List.append_assoc, List.singleton_append]

/-- What is returned are the values of the calls. -/
theorem mapOwned_eq_ok {dropX : X → Dtor σ} {dropY : Y → Dtor σ} {f : X → Exec σ Y} {xs : List X}
    {done ys : List Y} {s t : σ} :
    mapOwned dropX dropY f xs done s = .ok ys t ↔ traverse dropY (xs.map f) done s = .ok ys t := by
  induction xs generalizing done s with
  | nil => rfl
  | cons x xs ih =>
      rw [List.map_cons, mapOwned, traverse, onUnwind_bind_eq_ok, onUnwind_bind_eq_ok]
      simp only [ih]

/-- The first step of a traversal next to its source: if it panics, the results are
dropped before the source. -/
theorem withLocal_traverse_cons (drop : Y → Dtor σ) (dropLocal : L → Dtor σ)
    (dropResult : β → Exec σ Unit) (l : L) (c : Exec (L × σ) Y) (cs : List (Exec (L × σ) Y))
    (done : List Y) (k : List Y → Exec (L × σ) β) (s : σ) :
    withLocal l (traverse (fun y => (drop y).lift) (c :: cs) done >>= k)
        (fun l => (dropLocal l).run) dropResult s =
      match c (l, s) with
      | .ok y (l', s') =>
          withLocal l' (traverse (fun y => (drop y).lift) cs (done ++ [y]) >>= k)
            (fun l => (dropLocal l).run) dropResult s'
      | .panic (l', s') => unwind ((Dtor.slice drop done).andThen (dropLocal l')).run s'
      | .abort => .abort
      | .ub => .ub := by
  rw [withLocal, traverse, bind_assoc, onUnwind_bind_apply, ← Dtor.lift_slice]
  cases c (l, s) with
  | ok y t => rfl
  | panic t =>
      obtain ⟨l', s'⟩ := t
      dsimp only
      rw [Dtor.unwind_lift_apply, Dtor.unwind_andThen_apply]
      cases (Dtor.slice drop done).run s' <;> rfl
  | abort => rfl
  | ub => rfl

/-- A local that nothing uses and whose destructor does nothing. -/
theorem withLocal_lift (l : L) (c : Exec σ β) {dropLocal : L → Exec σ Unit}
    (hdrop : dropLocal l = pure ()) (dropResult : β → Exec σ Unit) :
    withLocal l c.lift dropLocal dropResult = c := by
  funext s
  rw [withLocal, lift]
  cases c s with
  | ok b s' =>
      change ((dropLocal l).onUnwind (dropResult b) >>= fun _ => pure b) s' = _
      rw [hdrop]
      rfl
  | panic s' =>
      change unwind (dropLocal l) s' = _
      rw [hdrop]
      rfl
  | abort => rfl
  | ub => rfl

/-- Run `f` on the next value of the source, or `otherwise` if there is none. -/
def pull (f : X → Exec σ Y) (otherwise : Exec (List X × σ) Y) : Exec (List X × σ) Y := do
  match ← Deque.next with
  | some x => (f x).lift
  | none => otherwise

theorem pull_cons (f : X → Exec σ Y) (otherwise : Exec (List X × σ) Y) (x : X) (xs : List X)
    (s : σ) : pull f otherwise (x :: xs, s) = (f x).lift (xs, s) := rfl

theorem pull_nil (f : X → Exec σ Y) (otherwise : Exec (List X × σ) Y) (s : σ) :
    pull f otherwise ([], s) = otherwise ([], s) := rfl

/-- As many steps as the source has values consume it; `otherwise` is never run. -/
theorem withLocal_mapOwned (dropX : X → Dtor σ) (dropY : Y → Dtor σ) (f : X → Exec σ Y)
    (otherwise : Exec (List X × σ) Y) (k : List Y → Exec σ β) (dropResult : β → Exec σ Unit)
    (xs : List X) (done : List Y) :
    withLocal xs
        (traverse (fun y => (dropY y).lift) (.replicate xs.length (pull f otherwise)) done >>=
          fun ys => (k ys).lift)
        (fun xs => (Dtor.slice dropX xs).run) dropResult =
      (mapOwned dropX dropY f xs done >>= k) := by
  induction xs generalizing done with
  | nil => exact withLocal_lift [] (k done) rfl dropResult
  | cons x xs ih =>
      funext s
      rw [List.length_cons, List.replicate_succ, withLocal_traverse_cons, mapOwned, bind_assoc,
        onUnwind_bind_apply]
      rw [pull_cons, lift]
      cases f x s with
      | ok y s' => exact congrFun (ih (done ++ [y])) s'
      | panic s' => rfl
      | abort => rfl
      | ub => rfl

/-- Steps beyond the values of the source run `otherwise` on the exhausted source. -/
theorem withLocal_padded (drop : X → Dtor σ) (otherwise : Exec σ X) (k : List X → Exec σ β)
    (dropResult : β → Exec σ Unit) (xs done : List X) (n : Nat) :
    withLocal xs
        (traverse (fun x => (drop x).lift)
          (.replicate (xs.length + n) (pull pure otherwise.lift)) done >>= fun ys => (k ys).lift)
        (fun xs => (Dtor.slice drop xs).run) dropResult =
      (traverse drop (.replicate n otherwise) (done ++ xs) >>= k) := by
  induction xs generalizing done with
  | nil =>
      rw [List.append_nil, List.length_nil, Nat.zero_add]
      induction n generalizing done with
      | zero => exact withLocal_lift [] (k done) rfl dropResult
      | succ n ih =>
          funext s
          rw [List.replicate_succ, withLocal_traverse_cons, List.replicate_succ, traverse,
            bind_assoc, onUnwind_bind_apply]
          rw [pull_nil, lift]
          cases otherwise s with
          | ok y s' => exact congrFun (ih (done ++ [y])) s'
          | panic s' =>
              dsimp only
              rw [Dtor.slice_nil, Dtor.andThen_noop]
          | abort => rfl
          | ub => rfl
  | cons x xs ih =>
      funext s
      rw [List.length_cons, Nat.succ_add, List.replicate_succ, withLocal_traverse_cons,
        pull_cons]
      have hrest := congrFun (ih (done ++ [x])) s
      rwa [List.append_assoc, List.singleton_append] at hrest

end Exec

end ConstArray.Foundation
