import ConstArray.Foundation.Usize
import ConstArray.Foundation.Window
import ConstArray.Size.Proof
import ConstArray.Storage.Layout

/-! # Borrowed views

A reference is the address of its first element and a type that says how much is
borrowed. Shared and mutable versions of a function compute the same addresses,
so each of them is written once over the mutability of the reference. Lengths
are checked by safe code: a length that does not fit panics.

Addresses count elements of the innermost type, as in the memory images.
-/

namespace ConstArray

open Foundation

/-- `&` or `&mut`. -/
inductive Mutability where
  | shared
  | exclusive
  deriving DecidableEq, Repr

/-- A reference to a value of the type `t`. -/
structure Ref (μ : Mutability) (t : Ty) where
  addr : Nat
  deriving DecidableEq, Repr

/-- A slice of values of the type `t`. -/
structure Slice (μ : Mutability) (t : Ty) where
  addr : Nat
  len : Nat
  deriving DecidableEq, Repr

/-- The distance between neighbours in an array of `t`. -/
def Ty.stride (t : Ty) : Nat := (t.layout .unit).size

@[simp] theorem Ty.stride_eq (t : Ty) : t.stride = t.count := by
  rw [stride, (Ty.laidOutAs .unit t).size_eq]
  exact Nat.mul_one _

variable {σ : Type} {μ : Mutability} {t : Ty} {A B P S S2 : ConcreteSize}

namespace Slice

/-- `split_at` and `split_at_mut`. -/
def splitAt (s : Slice μ t) (mid : Nat) : Exec σ (Slice μ t × Slice μ t) :=
  if mid ≤ s.len then pure (⟨s.addr, mid⟩, ⟨s.addr + mid * t.stride, s.len - mid⟩)
  else Exec.panic

/-- `s[i]`. -/
def index (s : Slice μ t) (i : Nat) : Exec σ (Ref μ t) :=
  if i < s.len then pure ⟨s.addr + i * t.stride⟩ else Exec.panic

/-- `Array::slice_as_arrays` and `slice_as_arrays_mut`. -/
def asArrays (w : Nat) (S : ConcreteSize) (s : Slice μ t) (n : Nat) :
    Option (Slice μ (.arr S t)) :=
  match checkedMul w n S.count with
  | some len => if len = s.len then some ⟨s.addr, n⟩ else none
  | none => none

/-- `Array::from_slice` and `from_mut_slice`. -/
def toArray (w : Nat) (S : ConcreteSize) (s : Slice μ t) : Option (Ref μ (.arr S t)) :=
  match s.asArrays w S 1 with
  | some ⟨array, 1⟩ => some ⟨array⟩
  | _ => none

/-- `Array::slice_as_chunks` and `slice_as_chunks_mut`. The outer option is constant
evaluation, which includes the assertion that the chunk size is not 0. -/
def asChunks (w : Nat) (overflowChecks : Bool) (S : ConcreteSize) (s : Slice μ t) :
    Option (Exec σ (Slice μ (.arr S t) × Slice μ t)) := do
  let size ← S.usize? w
  guard (size ≠ 0)
  return do
    let len := s.len / size
    let (chunks, rest) ← s.splitAt (← mulUsize w overflowChecks len size)
    return (← Exec.unwrap (chunks.asArrays w S len), rest)

def window (s : Slice μ t) : Window := ⟨s.addr, s.len * t.count⟩

end Slice

namespace Ref

/-- `size::as_slice` and `as_mut_slice`. -/
def storageAsSlice (S : ConcreteSize) (a : Ref μ (S.arrayType t)) : Slice μ t :=
  ⟨a.addr, S.count⟩

/-- The storage, at the address of the array. -/
def storage (a : Ref μ (.arr S t)) : Ref μ (S.arrayType t) := ⟨a.addr⟩

/-- `Array::as_slice` and `as_mut_slice`. -/
def asSlice (a : Ref μ (.arr S t)) : Slice μ t := storageAsSlice S a.storage

/-- `Array::cast_ref` and `cast_mut`. -/
def cast (w : Nat) (_ : SameLen S S2) (a : Ref μ (.arr S t)) : Exec σ (Ref μ (.arr S2 t)) :=
  Exec.unwrap (a.asSlice.toArray w S2)

/-- `Array::split_prefix` and `split_prefix_mut`. -/
def splitPrefix (w : Nat) (_ : AtMost P S) (a : Ref μ (.arr S t)) :
    Exec σ (Ref μ (.arr P t) × Slice μ t) := do
  let (initial, rest) ← a.asSlice.splitAt P.count
  return (← Exec.unwrap (initial.toArray w P), rest)

/-- `Array::prefix_ref` and `prefix_mut`. -/
def prefixArray (w : Nat) (p : AtMost P S) (a : Ref μ (.arr S t)) : Exec σ (Ref μ (.arr P t)) :=
  Prod.fst <$> a.splitPrefix w p

/-- `Array::split_suffix` and `split_suffix_mut`. -/
def splitSuffix (w : Nat) (overflowChecks : Bool) (_ : AtMost P S) (a : Ref μ (.arr S t)) :
    Exec σ (Slice μ t × Ref μ (.arr P t)) := do
  -- for a wrong proof the difference wraps without overflow checks; `split_at` panics then
  let (rest, suffix) ← a.asSlice.splitAt (← subUsize w overflowChecks S.count P.count)
  return (rest, ← Exec.unwrap (suffix.toArray w P))

/-- `Array::suffix_ref` and `suffix_mut`. -/
def suffixArray (w : Nat) (overflowChecks : Bool) (p : AtMost P S) (a : Ref μ (.arr S t)) :
    Exec σ (Ref μ (.arr P t)) :=
  Prod.snd <$> a.splitSuffix w overflowChecks p

/-- `Array::wrap_ref` and `wrap_mut`. -/
def wrap (w : Nat) (inner : Ref μ (S.arrayType t)) : Exec σ (Ref μ (.arr S t)) :=
  Exec.unwrap ((storageAsSlice S inner).toArray w S)

/-- `Array::split_ref` and `split_mut`: borrow both fields of the `Concat`. -/
def split (w : Nat) (a : Ref μ (.arr (.sum A B) t)) :
    Exec σ (Ref μ (.arr A t) × Ref μ (.arr B t)) := do
  let fst : Ref μ (A.arrayType t) := ⟨a.addr⟩
  let snd : Ref μ (B.arrayType t) :=
    ⟨a.addr + Layout.secondField ((A.arrayType t).layout .unit) ((B.arrayType t).layout .unit)⟩
  return (← fst.wrap w, ← snd.wrap w)

/-- `Array::as_chunks` and `as_chunks_mut`. -/
def asChunks (w : Nat) (a : Ref μ (.arr (.prod A B) t)) : Exec σ (Ref μ (.arr A (.arr B t))) := do
  let chunks ← Exec.unwrap (a.asSlice.asArrays w B A.count)
  Exec.unwrap (chunks.toArray w A)

/-- `Array::as_array` and `as_mut_array`. -/
def asPlain {n : Nat} (a : Ref μ (.arr (.len n) t)) : Ref μ (.array t n) := a.storage

/-- `Array::from_ref` and `from_mut`. -/
def ofPlain {n : Nat} (w : Nat) (arr : Ref μ (.array t n)) : Exec σ (Ref μ (.arr (.len n) t)) :=
  wrap (S := .len n) w arr

def window (a : Ref μ t) : Window := ⟨a.addr, t.count⟩

end Ref

/-! ## The two versions of each function -/

namespace Array

abbrev asSlice (a : Ref .shared (.arr S t)) : Slice .shared t := Ref.asSlice a
abbrev asMutSlice (a : Ref .exclusive (.arr S t)) : Slice .exclusive t := Ref.asSlice a

abbrev sliceAsArrays (w : Nat) (S : ConcreteSize) (s : Slice .shared t) (n : Nat) :
    Option (Slice .shared (.arr S t)) := s.asArrays w S n
abbrev sliceAsArraysMut (w : Nat) (S : ConcreteSize) (s : Slice .exclusive t) (n : Nat) :
    Option (Slice .exclusive (.arr S t)) := s.asArrays w S n

abbrev fromSlice (w : Nat) (S : ConcreteSize) (s : Slice .shared t) :
    Option (Ref .shared (.arr S t)) := s.toArray w S
abbrev fromMutSlice (w : Nat) (S : ConcreteSize) (s : Slice .exclusive t) :
    Option (Ref .exclusive (.arr S t)) := s.toArray w S

abbrev sliceAsChunks (w : Nat) (overflowChecks : Bool) (S : ConcreteSize)
    (s : Slice .shared t) : Option (Exec σ (Slice .shared (.arr S t) × Slice .shared t)) :=
  s.asChunks w overflowChecks S
abbrev sliceAsChunksMut (w : Nat) (overflowChecks : Bool) (S : ConcreteSize)
    (s : Slice .exclusive t) :
    Option (Exec σ (Slice .exclusive (.arr S t) × Slice .exclusive t)) :=
  s.asChunks w overflowChecks S

abbrev castRef (w : Nat) (p : SameLen S S2) (a : Ref .shared (.arr S t)) :
    Exec σ (Ref .shared (.arr S2 t)) := a.cast w p
abbrev castMut (w : Nat) (p : SameLen S S2) (a : Ref .exclusive (.arr S t)) :
    Exec σ (Ref .exclusive (.arr S2 t)) := a.cast w p

abbrev prefixRef (w : Nat) (p : AtMost P S) (a : Ref .shared (.arr S t)) :
    Exec σ (Ref .shared (.arr P t)) := a.prefixArray w p
abbrev prefixMut (w : Nat) (p : AtMost P S) (a : Ref .exclusive (.arr S t)) :
    Exec σ (Ref .exclusive (.arr P t)) := a.prefixArray w p

abbrev splitPrefix (w : Nat) (p : AtMost P S) (a : Ref .shared (.arr S t)) :
    Exec σ (Ref .shared (.arr P t) × Slice .shared t) := Ref.splitPrefix w p a
abbrev splitPrefixMut (w : Nat) (p : AtMost P S) (a : Ref .exclusive (.arr S t)) :
    Exec σ (Ref .exclusive (.arr P t) × Slice .exclusive t) := Ref.splitPrefix w p a

abbrev suffixRef (w : Nat) (overflowChecks : Bool) (p : AtMost P S) (a : Ref .shared (.arr S t)) :
    Exec σ (Ref .shared (.arr P t)) := a.suffixArray w overflowChecks p
abbrev suffixMut (w : Nat) (overflowChecks : Bool) (p : AtMost P S)
    (a : Ref .exclusive (.arr S t)) : Exec σ (Ref .exclusive (.arr P t)) :=
  a.suffixArray w overflowChecks p

abbrev splitSuffix (w : Nat) (overflowChecks : Bool) (p : AtMost P S)
    (a : Ref .shared (.arr S t)) : Exec σ (Slice .shared t × Ref .shared (.arr P t)) :=
  Ref.splitSuffix w overflowChecks p a
abbrev splitSuffixMut (w : Nat) (overflowChecks : Bool) (p : AtMost P S)
    (a : Ref .exclusive (.arr S t)) : Exec σ (Slice .exclusive t × Ref .exclusive (.arr P t)) :=
  Ref.splitSuffix w overflowChecks p a

abbrev wrapRef (w : Nat) (inner : Ref .shared (S.arrayType t)) :
    Exec σ (Ref .shared (.arr S t)) := inner.wrap w
abbrev wrapMut (w : Nat) (inner : Ref .exclusive (S.arrayType t)) :
    Exec σ (Ref .exclusive (.arr S t)) := inner.wrap w

abbrev splitRef (w : Nat) (a : Ref .shared (.arr (.sum A B) t)) :
    Exec σ (Ref .shared (.arr A t) × Ref .shared (.arr B t)) := a.split w
abbrev splitMut (w : Nat) (a : Ref .exclusive (.arr (.sum A B) t)) :
    Exec σ (Ref .exclusive (.arr A t) × Ref .exclusive (.arr B t)) := a.split w

abbrev asChunks (w : Nat) (a : Ref .shared (.arr (.prod A B) t)) :
    Exec σ (Ref .shared (.arr A (.arr B t))) := Ref.asChunks w a
abbrev asChunksMut (w : Nat) (a : Ref .exclusive (.arr (.prod A B) t)) :
    Exec σ (Ref .exclusive (.arr A (.arr B t))) := Ref.asChunks w a

abbrev asArray {n : Nat} (a : Ref .shared (.arr (.len n) t)) : Ref .shared (.array t n) :=
  a.asPlain
abbrev asMutArray {n : Nat} (a : Ref .exclusive (.arr (.len n) t)) :
    Ref .exclusive (.array t n) := a.asPlain

abbrev fromRef {n : Nat} (w : Nat) (arr : Ref .shared (.array t n)) :
    Exec σ (Ref .shared (.arr (.len n) t)) := arr.ofPlain w
abbrev fromMut {n : Nat} (w : Nat) (arr : Ref .exclusive (.array t n)) :
    Exec σ (Ref .exclusive (.arr (.len n) t)) := arr.ofPlain w

end Array

/-! ## The checks -/

namespace Slice

variable {w n : Nat} {s : Slice μ t}

/-- The checked product is compared with a length, so an overflow is a mismatch
as well. -/
theorem asArrays_eq (hlen : s.len < 2 ^ w) (n : Nat) :
    s.asArrays w S n = if n * S.count = s.len then some ⟨s.addr, n⟩ else none := by
  unfold asArrays
  by_cases hmul : n * S.count < 2 ^ w
  · rw [checkedMul_eq_some.mpr ⟨rfl, hmul⟩]
  · rw [checkedMul_eq_none.mpr (Nat.le_of_not_lt hmul), if_neg]
    omega

theorem toArray_eq (hlen : s.len < 2 ^ w) :
    s.toArray w S = if S.count = s.len then some ⟨s.addr⟩ else none := by
  rw [toArray, asArrays_eq hlen, Nat.one_mul]
  by_cases h : S.count = s.len
  · simp only [if_pos h]
  · simp only [if_neg h]

theorem splitAt_of_le {mid : Nat} (h : mid ≤ s.len) :
    (s.splitAt mid : Exec σ _) =
      pure (⟨s.addr, mid⟩, ⟨s.addr + mid * t.count, s.len - mid⟩) := by
  rw [splitAt, if_pos h, Ty.stride_eq]

theorem splitAt_of_lt {mid : Nat} (h : s.len < mid) : (s.splitAt mid : Exec σ _) = Exec.panic :=
  if_neg (Nat.not_le_of_lt h)

/-- The length is divided, multiplied again and split at; none of it fails. -/
theorem asChunks_eq {checks : Bool} (hS : S.Evaluates w) (hpos : 0 < S.count)
    (hlen : s.len < 2 ^ w) :
    (s.asChunks w checks S : Option (Exec σ _)) =
      some (pure (⟨s.addr, s.len / S.count⟩,
        ⟨s.addr + s.len / S.count * S.count * t.count, s.len % S.count⟩)) := by
  have hle : s.len / S.count * S.count ≤ s.len := Nat.div_mul_le_self _ _
  have hlt : s.len / S.count * S.count < 2 ^ w := Nat.lt_of_le_of_lt hle hlen
  have hrest : s.len - s.len / S.count * S.count = s.len % S.count := by
    rw [Nat.mul_comm, Nat.mod_def]
  have hsize : S.usize? w = some S.count := hS
  unfold asChunks
  simp only [hsize, Option.bind_eq_bind, Option.bind_some, Nat.ne_of_gt hpos, ne_eq,
    not_false_eq_true, guard_true, Option.pure_def]
  rw [mulUsize_of_lt hlt, pure_bind, splitAt_of_le hle, pure_bind, asArrays_eq hlt, if_pos rfl,
    hrest]
  rfl

/-- A chunk size of 0 is rejected by the compiler. -/
theorem asChunks_of_count_eq_zero {checks : Bool} (hS : S.Evaluates w) (hzero : S.count = 0) :
    (s.asChunks w checks S : Option (Exec σ _)) = none := by
  have hsize : S.usize? w = some 0 := hzero ▸ hS
  unfold asChunks
  simp [hsize]

theorem index_of_lt {i : Nat} (h : i < s.len) :
    (s.index i : Exec σ _) = pure ⟨s.addr + i * t.count⟩ := by
  rw [index, if_pos h, Ty.stride_eq]

end Slice

namespace Ref

variable {w : Nat} {checks : Bool}

@[simp] theorem asSlice_eq (a : Ref μ (.arr S t)) : a.asSlice = ⟨a.addr, S.count⟩ := rfl

@[simp] theorem window_asSlice (a : Ref μ (.arr S t)) : a.asSlice.window = a.window := by
  simp [Slice.window, window]

theorem cast_eq (hS : S.Evaluates w) (p : SameLen S S2) (a : Ref μ (.arr S t)) :
    (a.cast w p : Exec σ _) = if S.count = S2.count then pure ⟨a.addr⟩ else Exec.panic := by
  rw [cast, Slice.toArray_eq hS.count_lt, asSlice_eq]
  by_cases h : S.count = S2.count
  · rw [if_pos h, if_pos h.symm]
    rfl
  · rw [if_neg h, if_neg (Ne.symm h)]
    rfl

theorem splitPrefix_eq (hS : S.Evaluates w) (p : AtMost P S) (a : Ref μ (.arr S t)) :
    (a.splitPrefix w p : Exec σ _) =
      if P.count ≤ S.count then
        pure (⟨a.addr⟩, ⟨a.addr + P.count * t.count, S.count - P.count⟩)
      else Exec.panic := by
  rw [splitPrefix, asSlice_eq]
  by_cases h : P.count ≤ S.count
  · rw [if_pos h, Slice.splitAt_of_le h, pure_bind]
    dsimp only
    rw [Slice.toArray_eq (Nat.lt_of_le_of_lt h hS.count_lt), if_pos rfl]
    rfl
  · rw [if_neg h, Slice.splitAt_of_lt (Nat.lt_of_not_le h), Exec.panic_bind]

/-- An underflow panics, and where it wraps the position is behind the end. -/
theorem splitSuffix_eq (hS : S.Evaluates w) (hP : P.Evaluates w) (p : AtMost P S)
    (a : Ref μ (.arr S t)) :
    (a.splitSuffix w checks p : Exec σ _) =
      if P.count ≤ S.count then
        pure (⟨a.addr, S.count - P.count⟩, ⟨a.addr + (S.count - P.count) * t.count⟩)
      else Exec.panic := by
  have hlt := hS.count_lt
  rw [splitSuffix, asSlice_eq, subUsize]
  by_cases h : P.count ≤ S.count
  · have hrest : S.count - (S.count - P.count) = P.count := Nat.sub_sub_self h
    rw [if_pos h, if_pos h, pure_bind, Slice.splitAt_of_le (Nat.sub_le _ _), pure_bind]
    dsimp only
    rw [hrest, Slice.toArray_eq (Nat.lt_of_le_of_lt h hlt), if_pos rfl]
    rfl
  · rw [if_neg h, if_neg h]
    cases checks with
    | true => rfl
    | false =>
        have hwrap : S.count < 2 ^ w + S.count - P.count := by
          have hltP := hP.count_lt
          omega
        rw [if_neg Bool.false_ne_true, pure_bind, Slice.splitAt_of_lt hwrap, Exec.panic_bind]

theorem wrap_eq (hS : S.Evaluates w) (inner : Ref μ (S.arrayType t)) :
    (inner.wrap w : Exec σ _) = pure ⟨inner.addr⟩ := by
  rw [wrap, Slice.toArray_eq hS.count_lt]
  exact congrArg Exec.unwrap (if_pos rfl)

theorem split_eq (hS : (Size.sum A B).Evaluates w) (a : Ref μ (.arr (.sum A B) t)) :
    (a.split w : Exec σ _) = pure (⟨a.addr⟩, ⟨a.addr + A.count * t.count⟩) := by
  rw [split, wrap_eq hS.of_sum.1, wrap_eq hS.of_sum.2, Size.secondField_arrayType]
  rfl

theorem asChunks_eq (hS : (Size.prod A B).Evaluates w) (a : Ref μ (.arr (.prod A B) t)) :
    (a.asChunks w : Exec σ _) = pure ⟨a.addr⟩ := by
  rw [asChunks, asSlice_eq, Slice.asArrays_eq hS.count_lt, if_pos (Size.count_prod A B).symm,
    Exec.unwrap_some, pure_bind, Slice.toArray_eq hS.of_prod.1.count_lt]
  exact congrArg Exec.unwrap (if_pos rfl)

end Ref

end ConstArray
