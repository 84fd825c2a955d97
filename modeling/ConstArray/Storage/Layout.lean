import ConstArray.Foundation.Layout
import ConstArray.Size.Basic
import Mathlib.Data.List.Range
import Mathlib.Data.List.Flatten

/-! # The storage of an array and its layout

`S::ArrayType<T>` nests plain arrays, `Concat` and `Repeat`. Types are terms
over the element type, with their layout computed by the rules of the language.
The theorem is that the nesting is invisible: whatever its structure, the
storage is laid out as `[T; S::USIZE]`.
-/

namespace ConstArray

open Foundation

/-- The types the crate builds from an element type `T`. -/
inductive Ty where
  | elem
  | array (x : Ty) (n : Nat)
  | concat (x y : Ty)
  | repeat (i o : Ty)
  | wrap (x : Ty)
  deriving DecidableEq, Repr

namespace Ty

/-- The layout, for a given layout of the element type. The `PhantomData` of a
`Repeat` has no size. -/
def layout (e : Layout) : Ty → Layout
  | elem => e
  | array x n => (x.layout e).array n
  | concat x y => (x.layout e).reprC (y.layout e)
  | «repeat» _ o => (o.layout e).transparent
  | wrap x => (x.layout e).transparent

/-- The byte offsets of the elements in structural order: the left part of a
`Concat` before the right, the chunks of an array one by one. -/
def offsets (e : Layout) : Ty → List Nat
  | elem => [0]
  | array x n => (List.range n).flatMap fun i => (x.offsets e).map (i * (x.layout e).size + ·)
  | concat x y => x.offsets e ++
      (y.offsets e).map (Layout.secondField (x.layout e) (y.layout e) + ·)
  | «repeat» _ o => o.offsets e
  | wrap x => x.offsets e

/-- The number of elements. -/
def count : Ty → Nat
  | elem => 1
  | array x n => n * x.count
  | concat x y => x.count + y.count
  | «repeat» _ o => o.count
  | wrap x => x.count

/-- `ArrayType::LEN`, evaluated in checked arithmetic. Other types do not
implement the trait. -/
def len? (w : Nat) : Ty → Option Nat
  | elem | wrap _ => none
  | array _ n => literal w n
  | concat x y => do checkedAdd w (← x.len? w) (← y.len? w)
  | «repeat» i o => do checkedMul w (← i.len? w) (← o.len? w)

/-- `X: ArrayType<T>`, by the three implementations. -/
inductive IsArrayType : Ty → Ty → Prop where
  | array (t : Ty) (n : Nat) : IsArrayType t (.array t n)
  | concat {t a b : Ty} (ha : IsArrayType t a) (hb : IsArrayType t b) :
      IsArrayType t (.concat a b)
  | «repeat» {t i o : Ty} (hi : IsArrayType t i) (ho : IsArrayType i o) :
      IsArrayType t (.repeat i o)

end Ty

/-- `S::ArrayType<T>`. The storage of a `Prod` instantiates that of its first
factor at the storage of the second. -/
def Size.arrayType : ConcreteSize → Ty → Ty
  | .param p, _ => p.elim
  | .len n, t => .array t n
  | .sum a b, t => .concat (a.arrayType t) (b.arrayType t)
  | .prod a b, t => .repeat (b.arrayType t) (a.arrayType (b.arrayType t))

/-- `Array<T, S>`. -/
def Ty.arr (S : ConcreteSize) (t : Ty) : Ty := .wrap (S.arrayType t)

theorem Size.arrayType_isArrayType (S : ConcreteSize) (t : Ty) :
    Ty.IsArrayType t (S.arrayType t) := by
  induction S generalizing t with
  | param p => exact p.elim
  | len n => exact .array t n
  | sum a b iha ihb => exact .concat (iha t) (ihb t)
  | prod a b iha ihb => exact .repeat (ihb t) (iha _)

/-! ## Laid out as an array -/

/-- `x` is laid out as `[T; n]`: the documented contract of `ArrayType`. -/
structure LaidOutAs (e : Layout) (x : Ty) (n : Nat) : Prop where
  size_eq : (x.layout e).size = n * e.size
  align_eq : (x.layout e).align = e.align
  offsets_eq : x.offsets e = (List.range n).map (· * e.size)

/-- The elements of `n` blocks of `m` elements are the elements of `n * m`. -/
theorem range_flatMap_range (n m s : Nat) :
    ((List.range n).flatMap fun i => ((List.range m).map (· * s)).map (i * (m * s) + ·)) =
      (List.range (n * m)).map (· * s) := by
  induction n with
  | zero => simp
  | succ n ih =>
      rw [List.range_succ, List.flatMap_append, ih, Nat.succ_mul, List.range_add,
        List.map_append, List.flatMap_singleton, List.map_map, List.map_map]
      congr 2
      funext k
      simp only [Function.comp_apply]
      ring

namespace LaidOutAs

variable {e : Layout} {x y : Ty} {m n : Nat}

theorem elem (e : Layout) : LaidOutAs e .elem 1 where
  size_eq := (Nat.one_mul _).symm
  align_eq := rfl
  offsets_eq := by simp [Ty.offsets]

theorem array (h : LaidOutAs e x m) (n : Nat) : LaidOutAs e (.array x n) (n * m) where
  size_eq := by simp [Ty.layout, h.size_eq, Nat.mul_assoc]
  align_eq := h.align_eq
  offsets_eq := by
    rw [Ty.offsets, h.offsets_eq, h.size_eq]
    exact range_flatMap_range n m e.size

/-- Both parts of a `Concat` have the alignment of the element, so the second
follows the first directly and nothing is padded at the end. -/
theorem concat (hx : LaidOutAs e x m) (hy : LaidOutAs e y n) :
    LaidOutAs e (.concat x y) (m + n) where
  size_eq := by
    rw [Ty.layout, Layout.reprC_size_of_align_eq (hy.align_eq.trans hx.align_eq.symm),
      hx.size_eq, hy.size_eq, Nat.add_mul]
  align_eq := by
    rw [Ty.layout, Layout.reprC_align_of_align_eq (hy.align_eq.trans hx.align_eq.symm),
      hx.align_eq]
  offsets_eq := by
    rw [Ty.offsets, Layout.secondField_of_align_eq (hy.align_eq.trans hx.align_eq.symm),
      hx.offsets_eq, hy.offsets_eq, hx.size_eq, List.range_add, List.map_append,
      List.map_map, List.map_map]
    congr 2
    funext k
    simp only [Function.comp_apply, Nat.add_mul]

theorem «repeat» (h : LaidOutAs e y n) : LaidOutAs e (.repeat x y) n := ⟨h.1, h.2, h.3⟩

theorem wrap (h : LaidOutAs e x n) : LaidOutAs e (.wrap x) n := ⟨h.1, h.2, h.3⟩

/-- Every byte of such a type belongs to one of its elements. -/
theorem no_padding (h : LaidOutAs e x n) {b : Nat} (hb : b < (x.layout e).size) :
    ∃ k < n, k * e.size ≤ b ∧ b < (k + 1) * e.size := by
  have hsize : b < n * e.size := h.size_eq ▸ hb
  have hpos : 0 < e.size := Nat.pos_of_mul_pos_left (Nat.zero_lt_of_lt hsize)
  refine ⟨b / e.size, Nat.div_lt_of_lt_mul (Nat.mul_comm n _ ▸ hsize),
    Nat.div_mul_le_self b e.size, ?_⟩
  rw [Nat.mul_comm]
  exact Nat.lt_mul_div_succ b hpos

end LaidOutAs

/-- No type built here has padding anywhere. -/
theorem Ty.laidOutAs (e : Layout) (x : Ty) : LaidOutAs e x x.count := by
  induction x with
  | elem => exact .elem e
  | array x n ih => exact ih.array n
  | concat x y ihx ihy => exact ihx.concat ihy
  | «repeat» i o _ iho => exact iho.repeat
  | wrap x ih => exact ih.wrap

/-- The contract of `ArrayLen`. For a `Prod`, the element type of the outer array
is the inner array, so the induction is over every element type. -/
@[simp] theorem Size.count_arrayType (S : ConcreteSize) (t : Ty) :
    (S.arrayType t).count = S.count * t.count := by
  induction S generalizing t with
  | param p => exact p.elim
  | len n => rfl
  | sum a b iha ihb => rw [arrayType, Ty.count, iha, ihb, count_sum, Nat.add_mul]
  | prod a b iha ihb => rw [arrayType, Ty.count, iha, ihb, count_prod, Nat.mul_assoc]

@[simp] theorem Ty.count_arr (S : ConcreteSize) (t : Ty) : (arr S t).count = S.count * t.count :=
  S.count_arrayType t

/-- The second part of a `Concat` starts where the first ends. -/
theorem Size.secondField_arrayType (A B : ConcreteSize) (t : Ty) :
    Layout.secondField ((A.arrayType t).layout .unit) ((B.arrayType t).layout .unit) =
      A.count * t.count := by
  have hA := Ty.laidOutAs .unit (A.arrayType t)
  have hB := Ty.laidOutAs .unit (B.arrayType t)
  rw [Layout.secondField_of_align_eq (hB.align_eq.trans hA.align_eq.symm), hA.size_eq,
    count_arrayType]
  exact Nat.mul_one _

/-- `LEN` is computed from the storage and `USIZE` from the size, by the same
checked operations. -/
theorem Size.len?_arrayType (w : Nat) (S : ConcreteSize) (t : Ty) :
    (S.arrayType t).len? w = S.usize? w := by
  induction S generalizing t with
  | param p => exact p.elim
  | len n => rfl
  | sum a b iha ihb => simp only [arrayType, Ty.len?, iha, ihb, usize?]
  | prod a b iha ihb =>
      simp only [arrayType, Ty.len?, iha, ihb, usize?, Option.bind_eq_bind]
      -- the two constants multiply the same lengths in opposite order
      cases a.usize? w <;> cases b.usize? w <;>
        simp [checkedMul, Nat.mul_comm]

/-- `Array::LAYOUT_OK`: three assertions, in checked arithmetic. -/
def Size.layoutOk (w : Nat) (e : Layout) (S : ConcreteSize) : Option Unit := do
  guard ((← (S.arrayType .elem).len? w) = (← S.usize? w))
  guard (((Ty.arr S .elem).layout e).align = e.align)
  guard (((Ty.arr S .elem).layout e).size = (← checkedMul w e.size (← S.usize? w)))

/-- `LAYOUT_OK` only fails for a length or a size in bytes that overflows. -/
theorem Size.layoutOk_eq_some {w : Nat} {e : Layout} {S : ConcreteSize} :
    S.layoutOk w e = some () ↔ S.Evaluates w ∧ S.count * e.size < 2 ^ w := by
  have hlaid := Ty.laidOutAs e (.arr S .elem)
  cases hS : S.usize? w with
  | none => simp [layoutOk, len?_arrayType, Evaluates, hS]
  | some n =>
      have hn : S.count = n := (length_of_usize? hS Empty.elim).1
      by_cases hlt : n * e.size < 2 ^ w <;>
        simp [layoutOk, len?_arrayType, Evaluates, hS, hn, hlaid.align_eq, hlaid.size_eq,
          Ty.count, checkedMul, Nat.mul_comm e.size, hlt]

/-- The storage of every size is laid out as a plain array, and the types that
are transmuted into each other agree offset by offset. -/
theorem storage_layout (e : Layout) :
    (∀ S : ConcreteSize,
      Ty.IsArrayType .elem (S.arrayType .elem) ∧
      ((S.arrayType .elem).layout e).align = e.align ∧
      ((S.arrayType .elem).layout e).size = S.count * e.size ∧
      (∀ w, (S.arrayType .elem).len? w = S.usize? w) ∧
      ((S.arrayType .elem).offsets e).length = S.count ∧
      (∀ k < S.count, ((S.arrayType .elem).offsets e)[k]? = some (k * e.size)) ∧
      ∀ b < ((S.arrayType .elem).layout e).size,
        ∃ k < S.count, k * e.size ≤ b ∧ b < (k + 1) * e.size) ∧
    (∀ A B : ConcreteSize,
      (Ty.concat (.arr A .elem) (.arr B .elem)).layout e = (Ty.arr (.sum A B) .elem).layout e ∧
      (Ty.concat (.arr A .elem) (.arr B .elem)).offsets e =
        (Ty.arr (.sum A B) .elem).offsets e) ∧
    (∀ A B : ConcreteSize,
      (Ty.arr A (.arr B .elem)).layout e = (Ty.arr (.prod A B) .elem).layout e ∧
      (Ty.arr A (.arr B .elem)).offsets e = (Ty.arr (.prod A B) .elem).offsets e) := by
  have hagree {x y : Ty} (h : x.count = y.count) :
      x.layout e = y.layout e ∧ x.offsets e = y.offsets e := by
    have hx := x.laidOutAs e
    have hy := y.laidOutAs e
    rw [h] at hx
    exact ⟨Layout.ext (hx.size_eq.trans hy.size_eq.symm) (hx.align_eq.trans hy.align_eq.symm),
      hx.offsets_eq.trans hy.offsets_eq.symm⟩
  refine ⟨fun S => ?_, fun A B => hagree ?_, fun A B => hagree ?_⟩
  · have hlaid : LaidOutAs e (S.arrayType .elem) S.count := by
      simpa [Ty.count] using Ty.laidOutAs e (S.arrayType .elem)
    refine ⟨S.arrayType_isArrayType _, hlaid.align_eq, hlaid.size_eq,
      fun w => S.len?_arrayType w _, ?_, ?_, fun b hb => hlaid.no_padding hb⟩
    · rw [hlaid.offsets_eq, List.length_map, List.length_range]
    · intro k hk
      rw [hlaid.offsets_eq, List.getElem?_map, List.getElem?_range hk, Option.map_some]
  · simp [Ty.count]
  · simp [Ty.count]

end ConstArray
