import ConstArray.Foundation.Simulation

/-! # Double-ended queues of owned values

The operations of a double-ended queue that is consumed from both ends and drops
the values that it skips. The queue is a list, next to the world of its
destructors.
-/

namespace ConstArray.Foundation

variable {σ X L : Type}

namespace Deque

def next : Exec (List X × σ) (Option X) := do
  let xs ← Exec.get
  Exec.put xs.tail
  return xs.head?

def nextBack : Exec (List X × σ) (Option X) := do
  let xs ← Exec.get
  Exec.put xs.dropLast
  return xs.getLast?

/-- Drop the first `n` values, then take one. -/
def nth (drop : X → Dtor σ) (n : Nat) : Exec (List X × σ) (Option X) := do
  let xs ← Exec.get
  Exec.put (xs.drop n)
  (Dtor.slice drop (xs.take n)).lift.run
  next

/-- Drop the last `n` values, then take one from the back. -/
def nthBack (drop : X → Dtor σ) (n : Nat) : Exec (List X × σ) (Option X) := do
  let xs ← Exec.get
  Exec.put (xs.take (xs.length - n))
  (Dtor.slice drop (xs.drop (xs.length - n))).lift.run
  nextBack

/-- Replace value `j`, or give `x` back if there is none. -/
def replace (j : Nat) (x : X) : Exec (List X × σ) X := do
  let xs ← Exec.get
  match xs[j]? with
  | some old => do
      Exec.put (xs.set j x)
      return old
  | none => return x

def clone (drop : X → Dtor σ) (cloneElem : X → Exec σ X) (xs : List X) : Exec σ (List X) :=
  Exec.traverse drop (xs.map cloneElem) []

def count (drop : X → Dtor σ) (xs : List X) : Exec σ Nat := do
  (Dtor.slice drop xs).run
  return xs.length

def last (drop : X → Dtor σ) (xs : List X) : Exec σ (Option X) := do
  (Dtor.slice drop xs.dropLast).run.onUnwind (Dtor.option drop xs.getLast?).run
  return xs.getLast?

@[simp] theorem next_apply (xs : List X) (s : σ) :
    next (xs, s) = .ok xs.head? (xs.tail, s) := rfl

@[simp] theorem nextBack_apply (xs : List X) (s : σ) :
    nextBack (xs, s) = .ok xs.getLast? (xs.dropLast, s) := rfl

theorem nth_apply (drop : X → Dtor σ) (n : Nat) (xs : List X) (s : σ) :
    nth drop n (xs, s) =
      ((Dtor.slice drop (xs.take n)).lift.run >>= fun _ => next) (xs.drop n, s) := rfl

theorem nthBack_apply (drop : X → Dtor σ) (n : Nat) (xs : List X) (s : σ) :
    nthBack drop n (xs, s) =
      ((Dtor.slice drop (xs.drop (xs.length - n))).lift.run >>= fun _ => nextBack)
        (xs.take (xs.length - n), s) := rfl

/-! ## Methods in terms of `next`

The methods that an iterator provides if it only defines `next`. The same programs
are the backward ones for `nextBack`. -/

section Provided

variable {M : Type} {H : L → M → Prop}

/-- Skip `n` values one by one. -/
def nthByNext (next : Exec (L × σ) (Option X)) (drop : X → Dtor σ) :
    Nat → Exec (L × σ) (Option X)
  | 0 => next
  | n + 1 => do
      match ← next with
      | some x => do
          (drop x).lift.run
          nthByNext next drop n
      | none => return none

/-- Count the values, of which there must be less than `fuel`. -/
def countByNext (next : Exec (L × σ) (Option X)) (drop : X → Dtor σ) :
    (fuel : Nat) → Exec (L × σ) (Option Nat)
  | 0 => return none
  | fuel + 1 => do
      match ← next with
      | some x => do
          (drop x).lift.run
          Option.map (· + 1) <$> countByNext next drop fuel
      | none => return some 0

/-- Keep the latest value, where there must be less than `fuel` values. -/
def lastByNext (next : Exec (L × σ) (Option X)) (drop : X → Dtor σ) :
    (fuel : Nat) → Option X → Exec (L × σ) (Option (Option X))
  | 0, _ => return none
  | fuel + 1, latest => do
      match ← next with
      | some x => do
          (Dtor.option drop latest).lift.run
          lastByNext next drop fuel (some x)
      | none => return some latest

variable {next : Exec (L × σ) (Option X)} {next' : Exec (M × σ) (Option X)}

theorem nthByNext_refines (h : Exec.Refines (Exec.Local H) Eq next next') (drop : X → Dtor σ)
    (n : Nat) :
    Exec.Refines (Exec.Local H) Eq (nthByNext next drop n) (nthByNext next' drop n) := by
  induction n with
  | zero => exact h
  | succ n ih =>
      refine h.bind_same ?_
      intro x
      cases x with
      | some x => exact .bind_same (.lift _) fun _ => ih
      | none => exact .pure rfl

theorem countByNext_refines (h : Exec.Refines (Exec.Local H) Eq next next') (drop : X → Dtor σ)
    (fuel : Nat) :
    Exec.Refines (Exec.Local H) Eq (countByNext next drop fuel) (countByNext next' drop fuel) := by
  induction fuel with
  | zero => exact .pure rfl
  | succ fuel ih =>
      refine h.bind_same ?_
      intro x
      cases x with
      | some x => exact .bind_same (.lift _) fun _ => ih.map fun _ _ hn => congrArg _ hn
      | none => exact .pure rfl

theorem lastByNext_refines (h : Exec.Refines (Exec.Local H) Eq next next') (drop : X → Dtor σ)
    (fuel : Nat) (latest : Option X) :
    Exec.Refines (Exec.Local H) Eq (lastByNext next drop fuel latest)
      (lastByNext next' drop fuel latest) := by
  induction fuel generalizing latest with
  | zero => exact .pure rfl
  | succ fuel ih =>
      refine h.bind_same ?_
      intro x
      cases x with
      | some x => exact .bind_same (.lift _) fun _ => ih (some x)
      | none => exact .pure rfl

end Provided

/-! ## What they drop -/

/-- A destructor that records the value. -/
def traced (x : X) : Dtor (List X) := ⟨fun log => .ok () (log ++ [x]), fun _ => nofun⟩

theorem slice_traced (xs log : List X) :
    (Dtor.slice traced xs).run log = .ok () (log ++ xs) := by
  induction xs generalizing log with
  | nil => rw [List.append_nil]; rfl
  | cons x xs ih =>
      rw [Dtor.slice_cons, Dtor.andThen_apply]
      change (Dtor.slice traced xs).run (log ++ [x]) = _
      rw [ih, List.append_assoc, List.singleton_append]

theorem lift_slice_traced (xs log : List X) (l : L) :
    (Dtor.slice traced xs).lift.run (l, log) = .ok () (l, log ++ xs) := by
  change (Dtor.slice traced xs).run.lift (l, log) = _
  rw [Exec.lift, slice_traced]

theorem nth_traced (n : Nat) (xs log : List X) :
    nth traced n (xs, log) = .ok (xs.drop n).head? ((xs.drop n).tail, log ++ xs.take n) := by
  rw [nth_apply, Exec.bind_apply, lift_slice_traced]
  rfl

theorem nthByNext_traced (n : Nat) (xs log : List X) :
    nthByNext next traced n (xs, log) =
      .ok (xs.drop n).head? ((xs.drop n).tail, log ++ xs.take n) := by
  induction n generalizing xs log with
  | zero => simp [nthByNext]
  | succ n ih =>
      cases xs with
      | nil => simp [nthByNext, Exec.bind_apply]
      | cons x xs =>
          change nthByNext next traced n (xs, log ++ [x]) = _
          rw [ih]
          simp

theorem nthBack_traced (n : Nat) (xs log : List X) :
    nthBack traced n (xs, log) = .ok (xs.take (xs.length - n)).getLast?
      ((xs.take (xs.length - n)).dropLast, log ++ xs.drop (xs.length - n)) := by
  rw [nthBack_apply, Exec.bind_apply, lift_slice_traced]
  rfl

theorem nthByNextBack_traced (n : Nat) (xs log : List X) :
    nthByNext nextBack traced n (xs, log) = .ok (xs.take (xs.length - n)).getLast?
      ((xs.take (xs.length - n)).dropLast, log ++ (xs.drop (xs.length - n)).reverse) := by
  induction n generalizing xs log with
  | zero => simp [nthByNext]
  | succ n ih =>
      rcases xs.eq_nil_or_concat' with rfl | ⟨xs, x, rfl⟩
      · simp [nthByNext, Exec.bind_apply]
      · have hstep : nthByNext nextBack traced (n + 1) (xs ++ [x], log) =
            nthByNext nextBack traced n (xs, log ++ [x]) := by
          simp only [nthByNext, Exec.bind_apply, nextBack_apply, List.getLast?_concat,
            List.dropLast_concat]
          rfl
        have hkept : (xs ++ [x]).length - (n + 1) = xs.length - n := by simp
        have hle : xs.length - n ≤ xs.length := Nat.sub_le _ _
        rw [hstep, ih, hkept, List.take_append_of_le_length hle,
          List.drop_append_of_le_length hle]
        simp

theorem count_traced (xs log : List X) :
    count traced xs log = .ok xs.length (log ++ xs) := by
  rw [count, Exec.bind_apply, slice_traced]
  rfl

theorem countByNext_traced {fuel : Nat} (xs log : List X) (h : xs.length < fuel) :
    countByNext next traced fuel (xs, log) = .ok (some xs.length) ([], log ++ xs) := by
  induction fuel generalizing xs log with
  | zero => exact absurd h (Nat.not_lt_zero _)
  | succ fuel ih =>
      cases xs with
      | nil =>
          rw [List.append_nil]
          rfl
      | cons x xs =>
          change (Option.map (· + 1) <$> countByNext next traced fuel) (xs, log ++ [x]) = _
          rw [Exec.map_apply, ih xs (log ++ [x]) (Nat.lt_of_succ_lt_succ h), List.append_assoc]
          rfl

theorem last_traced (xs log : List X) :
    last traced xs log = .ok xs.getLast? (log ++ xs.dropLast) := by
  rw [last, Exec.bind_apply, Exec.onUnwind, slice_traced]
  rfl

theorem lastByNext_traced {fuel : Nat} (xs log : List X) (latest : Option X)
    (h : xs.length < fuel) :
    lastByNext next traced fuel latest (xs, log) =
      .ok (some (latest.toList ++ xs).getLast?) ([], log ++ (latest.toList ++ xs).dropLast) := by
  induction fuel generalizing xs log latest with
  | zero => exact absurd h (Nat.not_lt_zero _)
  | succ fuel ih =>
      cases xs with
      | nil => cases latest <;> simp [lastByNext, Exec.bind_apply]
      | cons x xs =>
          have hstep : lastByNext next traced (fuel + 1) latest (x :: xs, log) =
              lastByNext next traced fuel (some x) (xs, log ++ latest.toList) := by
            rw [lastByNext, Exec.bind_apply, next_apply]
            change ((Dtor.option traced latest).lift.run >>= _) (xs, log) = _
            rw [Exec.bind_apply, Dtor.option, lift_slice_traced]
          rw [hstep, ih _ _ _ (Nat.lt_of_succ_lt_succ h)]
          cases latest <;> simp

end Deque

end ConstArray.Foundation
