import ConstArray.Array.Convert
import ConstArray.Foundation.Unwind

/-! # Dropping and truncating arrays

Drop glue follows the nesting of the storage, unsafe code drops ranges of a flat
memory. Both drop the same elements in the same order.
-/

namespace ConstArray

open Foundation

variable {σ X : Type} {P S : ConcreteSize}

/-- `ptr::drop_in_place` of a slice. -/
def dropInPlace (drop : X → Dtor σ) (m : Mem X) (base n : Nat) : Exec σ Unit := do
  let xs ← Exec.ofOption (m.values base n)
  (Dtor.slice drop xs).run

theorem dropInPlace_eq (drop : X → Dtor σ) {m : Mem X} {base n : Nat} {xs : List X}
    (h : m.slice base n = xs.map some) :
    dropInPlace drop m base n = (Dtor.slice drop xs).run := by
  rw [dropInPlace, Mem.values_eq_some.mpr h, Exec.ofOption_some, pure_bind]

/-- The drop glue of `S::ArrayType<T>`, which follows the nesting. -/
def Size.dropGlue {X : Type} : (S : ConcreteSize) → (X → Dtor σ) → S.ArrayType X → Dtor σ
  | .param p, _, _ => p.elim
  | .len _, drop, v => .slice drop v.toList
  | .sum a b, drop, c => (a.dropGlue drop c.fst).andThen (b.dropGlue drop c.snd)
  | .prod a b, drop, r => a.dropGlue (b.dropGlue drop) r.inner

/-- Drop an array. -/
def Array.drop (drop : X → Dtor σ) (a : Array X S) : Dtor σ := S.dropGlue drop a.storage

theorem Size.dropGlue_eq (S : ConcreteSize) (drop : X → Dtor σ) (a : S.ArrayType X) :
    S.dropGlue drop a = Dtor.slice drop (S.flatten a) := by
  induction S generalizing X with
  | param p => exact p.elim
  | len n => rfl
  | sum p q ihp ihq =>
      change (p.dropGlue drop a.fst).andThen (q.dropGlue drop a.snd) = _
      rw [ihp, ihq, ← Dtor.slice_append]
      rfl
  | prod p q ihp ihq =>
      change p.dropGlue (q.dropGlue drop) a.inner = _
      have hinner : q.dropGlue drop = fun i => Dtor.slice drop (q.flatten i) :=
        funext fun i => ihq drop i
      rw [ihp, hinner, Dtor.slice_flatMap]
      rfl

/-- Drop glue drops the elements in order, whatever the structure. -/
@[simp] theorem Array.drop_eq (drop : X → Dtor σ) (a : Array X S) :
    a.drop drop = Dtor.slice drop a.flat := S.dropGlue_eq drop a.storage

namespace Array

/-- `Array::truncate`. The prefix is moved out of the storage before the rest is
dropped, and is dropped during unwinding if that panics. -/
def truncate (drop : X → Dtor σ) (_ : AtMost P S) (a : Array X S) : Exec σ (Array X P) := do
  let me := a.toMem
  let initial ← Exec.ofOption (load P me 0)
  -- `me` is never dropped: it still owns the rest, `initial` owns the prefix
  let me := me.moveOut 0 P.count
  -- `&mut me.as_mut_slice()[P::USIZE..]`
  let dropRest :=
    if P.count ≤ S.count then dropInPlace drop me P.count (S.count - P.count) else Exec.panic
  dropRest.onUnwind (initial.drop drop).run
  return initial

theorem truncate_eq (drop : X → Dtor σ) (p : AtMost P S) (h : P.count ≤ S.count)
    (a : Array X S) :
    ∃ b : Array X P, b.flat = a.flat.take P.count ∧ a.truncate drop p = (do
      (Dtor.slice drop (a.flat.drop P.count)).run.onUnwind (Dtor.slice drop b.flat).run
      return b) := by
  obtain ⟨b, hof, hb⟩ := exists_ofFlat (S := P) (l := a.flat.take P.count) (by simpa using h)
  have hload : load P a.toMem 0 = some b := by
    rw [load_toMem a (by omega), List.drop_zero, hof]
  have hrest : (a.toMem.moveOut 0 P.count).slice P.count (S.count - P.count) =
      (a.flat.drop P.count).map some := by
    rw [Mem.slice_moveOut (.inl (by omega)), slice_toMem a (by omega), List.take_of_length_le]
    simp
  refine ⟨b, hb, ?_⟩
  simp only [truncate, hload, Exec.ofOption_some, pure_bind, if_pos h, dropInPlace_eq drop hrest,
    drop_eq]

end Array

end ConstArray
