import ConstArray.Array.Build
import ConstArray.Foundation.Usize

/-! # The by-value iterator

`IntoIter` owns the elements of a storage whose slots may be uninitialized: those in
the range `alive` have not been yielded yet. The operations move the ends of the
range and read, write or drop slots through the flat memory of the storage.
-/

namespace ConstArray

open Foundation

variable {σ X : Type} {S : ConcreteSize}

/-- `IntoIter<X, S>`, with `alive` as `start..stop`. -/
structure IntoIter (X : Type) (S : ConcreteSize) where
  data : Array (Option X) S
  start : Nat
  stop : Nat

/-- `Array::into_iter`. -/
def Array.intoIter (a : Array X S) : Option (IntoIter X S) := do
  let data ← transmuteLayout (TypeRepr.elem.arr S) (TypeRepr.maybeUninit.arr S) a
  return { data, start := 0, stop := S.count }

namespace IntoIter

/-- The slots of the storage, as memory. -/
def cells (it : IntoIter X S) : Mem X := (TypeRepr.maybeUninit.arr S).image it.data

/-- The iterator after writes to its slots. -/
def setCells (it : IntoIter X S) (m : Mem X) : IntoIter X S :=
  { it with data := ((TypeRepr.maybeUninit.arr S).load m 0).getD it.data }

/-! ## Its methods -/

/-- `self.alive.len()`. -/
def aliveLen (it : IntoIter X S) : Nat := it.stop - it.start

/-- `self.data[i].assume_init_read()`. -/
def readSlot (i : Nat) : Exec (IntoIter X S × σ) X := do
  let it ← Exec.get
  let slot ← it.data.index i
  Exec.put (it.setCells (it.cells.moveOut i 1))
  Exec.ofOption slot

/-- `drop_range`. Its branch for a range out of bounds is `leak`, which does nothing
in the source. -/
def dropRange (leak : Exec σ Unit) (drop : X → Dtor σ) (start stop : Nat) :
    Exec (IntoIter X S × σ) Unit := do
  let it ← Exec.get
  if start ≤ stop ∧ stop ≤ S.count then do
    Exec.put (it.setCells (it.cells.moveOut start (stop - start)))
    (dropInPlace drop it.cells start (stop - start)).lift
  else leak.lift

/-- `self.alive.next()`. -/
def aliveNext : Exec (IntoIter X S × σ) (Option Nat) := do
  let it ← Exec.get
  if it.start < it.stop then do
    Exec.put { it with start := it.start + 1 }
    return some it.start
  else return none

/-- `self.alive.next_back()`. -/
def aliveNextBack : Exec (IntoIter X S × σ) (Option Nat) := do
  let it ← Exec.get
  if it.start < it.stop then do
    Exec.put { it with stop := it.stop - 1 }
    return some (it.stop - 1)
  else return none

/-- `Iterator::next`. -/
def next : Exec (IntoIter X S × σ) (Option X) := do
  match ← aliveNext with
  | some i => some <$> readSlot i
  | none => return none

/-- `DoubleEndedIterator::next_back`. -/
def nextBack : Exec (IntoIter X S × σ) (Option X) := do
  match ← aliveNextBack with
  | some i => some <$> readSlot i
  | none => return none

/-- `Iterator::nth`. -/
def nth (w : Nat) (overflowChecks : Bool) (leak : Exec σ Unit) (drop : X → Dtor σ) (n : Nat) :
    Exec (IntoIter X S × σ) (Option X) := do
  let it ← Exec.get
  let start := it.start
  let skipped := min n it.aliveLen
  -- the range shrinks before the slots are dropped, in case that panics
  Exec.put { it with start := ← addUsize w overflowChecks start skipped }
  dropRange leak drop start (← addUsize w overflowChecks start skipped)
  next

/-- `DoubleEndedIterator::nth_back`. -/
def nthBack (w : Nat) (overflowChecks : Bool) (leak : Exec σ Unit) (drop : X → Dtor σ)
    (n : Nat) : Exec (IntoIter X S × σ) (Option X) := do
  let it ← Exec.get
  let stop := it.stop
  let skipped := min n it.aliveLen
  Exec.put { it with stop := ← subUsize w overflowChecks stop skipped }
  dropRange leak drop (← subUsize w overflowChecks stop skipped) stop
  nextBack

/-- `Iterator::size_hint`. -/
def sizeHint (it : IntoIter X S) : Nat × Option Nat :=
  if it.start < it.stop then (it.stop - it.start, some (it.stop - it.start)) else (0, some 0)

/-- `ExactSizeIterator::len`, which asserts that the bounds agree. -/
def len (it : IntoIter X S) : Exec σ Nat :=
  if it.sizeHint.2 = some it.sizeHint.1 then pure it.sizeHint.1 else Exec.panic

/-- `as_slice` and `as_mut_slice`: the elements of `self.data[self.alive.clone()]`. -/
def asSlice (it : IntoIter X S) : Exec σ (List X) :=
  if it.start ≤ it.stop ∧ it.stop ≤ S.count then
    Exec.ofOption (it.cells.values it.start (it.stop - it.start))
  else Exec.panic

/-- A write through `as_mut_slice`: `mem::replace` of element `j`, or `x` is given back
if `get_mut(j)` finds none. -/
def replace (j : Nat) (x : X) : Exec (IntoIter X S × σ) X := do
  let it ← Exec.get
  match (← it.asSlice)[j]? with
  | some old => do
      Exec.put (it.setCells (it.cells.write (it.start + j) x))
      return old
  | none => return x

/-- `Drop::drop`. -/
def drop (leak : Exec σ Unit) (dropElem : X → Dtor σ) : Exec (IntoIter X S × σ) Unit := do
  let it ← Exec.get
  -- no slot is in the range when the destructors run
  Exec.put { it with start := 0, stop := 0 }
  dropRange leak dropElem it.start it.stop

/-- Drop an iterator. After `Drop::drop`, the drop glue of its fields does nothing. -/
def dropGlue (leak : Exec σ Unit) (dropElem : X → Dtor σ) (it : IntoIter X S) : Exec σ Unit :=
  Exec.withLocal it (drop leak dropElem) (fun _ => pure ()) (fun _ => pure ())

/-- `Iterator::count`. -/
def count (leak : Exec σ Unit) (dropElem : X → Dtor σ) (it : IntoIter X S) : Exec σ Nat :=
  Exec.withLocal it (pure it.aliveLen) (dropGlue leak dropElem) fun _ => pure ()

/-- `Iterator::last`. -/
def last (leak : Exec σ Unit) (dropElem : X → Dtor σ) (it : IntoIter X S) :
    Exec σ (Option X) :=
  Exec.withLocal it nextBack (dropGlue leak dropElem) fun x => (Dtor.option dropElem x).run

/-- The loop of `IntoIter::clone`. It owns `new`, whose slot is indexed before the
element is cloned. -/
def cloneLoop (w : Nat) (overflowChecks : Bool) (leak : Exec σ Unit) (dropElem : X → Dtor σ)
    (cloneElem : X → Exec σ X) : List X → IntoIter X S → Exec σ (IntoIter X S)
  | [], new => pure new
  | x :: xs, new => do
      let c ← (do
        let _ ← new.data.index new.stop
        cloneElem x : Exec σ X).onUnwind (new.dropGlue leak dropElem)
      -- `new` owns the clone as soon as its range has grown over it
      let new := new.setCells (new.cells.write new.stop c)
      let stop ← (addUsize w overflowChecks new.stop 1).onUnwind (new.dropGlue leak dropElem)
      cloneLoop w overflowChecks leak dropElem cloneElem xs { new with stop }

/-- `IntoIter::clone`. -/
def clone (w : Nat) (overflowChecks : Bool) (leak : Exec σ Unit) (dropElem : X → Dtor σ)
    (cloneElem : X → Exec σ X) (it : IntoIter X S) : Exec σ (IntoIter X S) := do
  let data ← Array.fromFn (fun _ => Dtor.noop) S fun _ => pure none
  let new := { data, start := it.start, stop := it.start }
  cloneLoop w overflowChecks leak dropElem cloneElem
    (← it.asSlice.onUnwind (new.dropGlue leak dropElem)) new

end IntoIter

end ConstArray
