import ConstArray.Foundation.Unwind
import Mathlib.Data.Vector.Basic

/-! # Loops over a mutable slice

`for x in slice` over `&mut [T]`: the body rewrites each element in turn, and may
thread a state of its own. The slice keeps its length.
-/

namespace ConstArray.Foundation

variable {σ S T : Type}

/-- `for x in slice { … }`. -/
def forMut (body : S → T → Exec σ (T × S)) :
    {n : Nat} → S → List.Vector T n → Exec σ (List.Vector T n × S)
  | 0, self, slice => pure (slice, self)
  | _ + 1, self, slice => do
      let (x, self) ← body self slice.head
      let (rest, self) ← forMut body self slice.tail
      return (x ::ᵥ rest, self)

/-- `&mut xs[..]`. -/
def wholeSlice (xs : List T) : List.Vector T xs.length := ⟨xs, rfl⟩

/-- The elements of a slice, each replaced by a function of its index. -/
def mapSlice (f : Nat → T → T) {n : Nat} (slice : List.Vector T n) : List.Vector T n :=
  ⟨slice.toList.mapIdx f, by simp⟩

@[simp] theorem toList_mapSlice (f : Nat → T → T) {n : Nat} (slice : List.Vector T n) :
    (mapSlice f slice).toList = slice.toList.mapIdx f := rfl

theorem mapSlice_cons (f : Nat → T → T) {n : Nat} (slice : List.Vector T (n + 1)) :
    mapSlice f slice = f 0 slice.head ::ᵥ mapSlice (fun i => f (i + 1)) slice.tail := by
  obtain ⟨x, xs, rfl⟩ := List.Vector.exists_eq_cons slice
  apply List.Vector.toList_injective
  rw [toList_mapSlice, List.Vector.toList_cons, List.mapIdx_cons, List.Vector.head_cons,
    List.Vector.tail_cons, List.Vector.toList_cons, toList_mapSlice]

/-- Two passes over a slice are one. -/
theorem mapSlice_mapSlice (f g : Nat → T → T) {n : Nat} (slice : List.Vector T n) :
    mapSlice g (mapSlice f slice) = mapSlice (fun i => g i ∘ f i) slice := by
  apply List.Vector.toList_injective
  rw [toList_mapSlice, toList_mapSlice, toList_mapSlice, List.mapIdx_mapIdx]

theorem mapSlice_id {n : Nat} (slice : List.Vector T n) :
    mapSlice (fun _ => id) slice = slice := by
  apply List.Vector.toList_injective
  rw [toList_mapSlice]
  simp [List.mapIdx_eq_zipIdx_map]

/-- A loop whose body only computes, from a state that is known at each index. -/
theorem forMut_eq {body : S → T → Exec σ (T × S)} (f : Nat → T → T) (state : Nat → S)
    {pos n : Nat} (h : ∀ i < n, ∀ x, body (state (pos + i)) x =
      pure (f (pos + i) x, state (pos + i + 1)))
    (slice : List.Vector T n) :
    forMut body (state pos) slice =
      pure (mapSlice (fun i => f (pos + i)) slice, state (pos + n)) := by
  induction n generalizing pos with
  | zero =>
      rw [forMut, Nat.add_zero]
      exact congrArg (fun v => pure (v, state pos)) (Subsingleton.elim _ _)
  | succ n ih =>
      have hhead : body (state pos) slice.head = pure (f pos slice.head, state (pos + 1)) :=
        h 0 (Nat.succ_pos n) slice.head
      have htail : ∀ i < n, ∀ x, body (state (pos + 1 + i)) x =
          pure (f (pos + 1 + i) x, state (pos + 1 + i + 1)) := by
        intro i hi x
        have hbody := h (i + 1) (by omega) x
        rwa [show pos + (i + 1) = pos + 1 + i by omega] at hbody
      have hrest := ih htail slice.tail
      simp only [forMut, hhead, pure_bind, hrest, mapSlice_cons, Nat.add_zero, Nat.add_assoc,
        Nat.add_comm 1]

/-- A loop whose body panics at index `k`. -/
theorem forMut_panic {body : S → T → Exec σ (T × S)} (f : Nat → T → T) (state : Nat → S)
    {pos k n : Nat} (hk : k < n) (h : ∀ i < k, ∀ x, body (state (pos + i)) x =
      pure (f (pos + i) x, state (pos + i + 1)))
    (hpanic : ∀ x, body (state (pos + k)) x = Exec.panic) (slice : List.Vector T n) :
    forMut body (state pos) slice = Exec.panic := by
  induction n generalizing pos k with
  | zero => exact absurd hk (Nat.not_lt_zero k)
  | succ n ih =>
      cases k with
      | zero =>
          have hhead : body (state pos) slice.head = Exec.panic := hpanic slice.head
          rw [forMut, hhead, Exec.panic_bind]
      | succ k =>
          have hhead : body (state pos) slice.head = pure (f pos slice.head, state (pos + 1)) :=
            h 0 (Nat.succ_pos k) slice.head
          have htail : ∀ i < k, ∀ x, body (state (pos + 1 + i)) x =
              pure (f (pos + 1 + i) x, state (pos + 1 + i + 1)) := by
            intro i hi x
            have hbody := h (i + 1) (by omega) x
            rwa [show pos + (i + 1) = pos + 1 + i by omega] at hbody
          rw [show pos + (k + 1) = pos + 1 + k by omega] at hpanic
          have hrest := ih (Nat.lt_of_succ_lt_succ hk) htail hpanic slice.tail
          rw [forMut, hhead, pure_bind]
          dsimp only
          rw [hrest, Exec.panic_bind]

/-- `for (x, y) in slice.iter_mut().zip(ys) { … }` with a body that may leave the
function early. Elements without a partner stay as they are. -/
def tryForZip {E Y : Type} (body : T → Y → Exec σ (Except E T)) :
    {n : Nat} → List.Vector T n → List Y → Exec σ (Except E (List.Vector T n))
  | 0, slice, _ => pure (.ok slice)
  | _ + 1, slice, [] => pure (.ok slice)
  | _ + 1, slice, y :: ys => do
      match ← body slice.head y with
      | .error e => return .error e
      | .ok x =>
          match ← tryForZip body slice.tail ys with
          | .error e => return .error e
          | .ok rest => return .ok (x ::ᵥ rest)

/-- The first chunk and the rest of a slice. -/
def rejoin {k n : Nat} (chunk : List.Vector T (min k n)) (rest : List.Vector T (n - k)) :
    List.Vector T n :=
  ⟨chunk.toList ++ rest.toList, by simp; omega⟩

/-- The rounds of `for chunk in slice.chunks_mut(k) { … }`. -/
def chunkLoop {k : Nat} (hk : 0 < k)
    (body : S → {m : Nat} → List.Vector T m → Exec σ (List.Vector T m × S)) (self : S) {n : Nat}
    (slice : List.Vector T n) : Exec σ (List.Vector T n × S) :=
  if _hn : n = 0 then pure (slice, self)
  else do
    let (chunk, self) ← body self (slice.take k)
    let (rest, self) ← chunkLoop hk body self (slice.drop k)
    return (rejoin chunk rest, self)
termination_by n

/-- `for chunk in slice.chunks_mut(k) { … }`. A chunk size of zero panics. -/
def forChunksMut (k : Nat)
    (body : S → {m : Nat} → List.Vector T m → Exec σ (List.Vector T m × S)) (self : S) {n : Nat}
    (slice : List.Vector T n) : Exec σ (List.Vector T n × S) :=
  if hk : 0 < k then chunkLoop hk body self slice else Exec.panic

/-- `n` elements of a list, from `pos` on. -/
def sliceAt (xs : List T) (pos n : Nat) (h : n ≤ xs.length - pos) : List.Vector T n :=
  ⟨(xs.drop pos).take n, by simp; omega⟩

@[simp] theorem toList_sliceAt (xs : List T) (pos n : Nat) (h : n ≤ xs.length - pos) :
    (sliceAt xs pos n h).toList = (xs.drop pos).take n := rfl

theorem rejoin_sliceAt {xs : List T} {pos k n : Nat} (h : min k n ≤ xs.length - pos)
    (h' : n - k ≤ xs.length - (pos + k)) (hn : n ≤ xs.length - pos) :
    rejoin (sliceAt xs pos (min k n) h) (sliceAt xs (pos + k) (n - k) h') =
      sliceAt xs pos n hn := by
  apply List.Vector.toList_injective
  change (xs.drop pos).take (min k n) ++ (xs.drop (pos + k)).take (n - k) = _
  rw [toList_sliceAt, ← List.drop_drop]
  rcases Nat.le_total k n with hle | hle
  · rw [Nat.min_eq_left hle, ← List.take_add, Nat.add_sub_cancel' hle]
  · rw [Nat.min_eq_right hle, Nat.sub_eq_zero_of_le hle, List.take_zero, List.append_nil]

/-- If each round fills its chunk from a list, the loop fills the slice from it. -/
theorem chunkLoop_eq {k : Nat} (hk : 0 < k)
    {body : S → {m : Nat} → List.Vector T m → Exec σ (List.Vector T m × S)} {xs : List T}
    (state : Nat → S)
    (h : ∀ i m, 0 < m → m ≤ k → ∀ (hm : m ≤ xs.length - k * i) (chunk : List.Vector T m),
      body (state i) chunk = pure (sliceAt xs (k * i) m hm, state (i + 1)))
    {i n : Nat} (hn : n ≤ xs.length - k * i) (slice : List.Vector T n) :
    ∃ j, chunkLoop hk body (state i) slice = pure (sliceAt xs (k * i) n hn, state j) := by
  induction n using Nat.strong_induction_on generalizing i with
  | _ n ih =>
      unfold chunkLoop
      split
      next hzero =>
        subst hzero
        exact ⟨i, congrArg (fun v => pure (v, state i)) (Subsingleton.elim _ _)⟩
      next hpos =>
        have hnext : k * (i + 1) = k * i + k := Nat.mul_succ k i
        obtain ⟨j, hrest⟩ := ih (n - k) (by omega) (i := i + 1) (by omega) (slice.drop k)
        simp only [hnext] at hrest
        have hchunk := h i (min k n) (by omega) (Nat.min_le_left k n) (by omega) (slice.take k)
        refine ⟨j, ?_⟩
        rw [hchunk, pure_bind]
        dsimp only
        rw [hrest, pure_bind]
        exact congrArg (fun v => pure (v, state j)) (rejoin_sliceAt _ (by omega) _)

end ConstArray.Foundation
