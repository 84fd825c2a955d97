import Mathlib.Algebra.Order.Group.Nat
import Mathlib.Tactic.Ring

/-! # Type layouts

The size and alignment of a type, and how arrays, `repr(C)` structs and
`repr(transparent)` wrappers are laid out.
-/

namespace ConstArray.Foundation

/-- The next multiple of `a`. -/
def roundUp (n a : Nat) : Nat := (n + a - 1) / a * a

theorem roundUp_of_dvd {n a : Nat} (ha : 0 < a) (h : a ∣ n) : roundUp n a = n := by
  obtain ⟨k, rfl⟩ := h
  have hdiv : (a * k + a - 1) / a = k := by
    rw [Nat.add_sub_assoc ha, Nat.mul_add_div ha, Nat.div_eq_of_lt (by omega), Nat.add_zero]
  rw [roundUp, hdiv, Nat.mul_comm]

theorem dvd_roundUp (n a : Nat) : a ∣ roundUp n a := Nat.dvd_mul_left a _

/-- The layout of a type: its size is a multiple of its alignment. -/
structure Layout where
  size : Nat
  align : Nat
  align_pos : 0 < align
  align_dvd : align ∣ size

namespace Layout

@[ext] theorem ext {l m : Layout} (hsize : l.size = m.size) (halign : l.align = m.align) :
    l = m := by
  cases l
  cases m
  simp_all

/-- One unit, for counting in elements instead of bytes. -/
def unit : Layout := ⟨1, 1, Nat.one_pos, Nat.one_dvd 1⟩

/-- `[X; n]`: stride `size X`, alignment of `X`. -/
def array (x : Layout) (n : Nat) : Layout where
  size := n * x.size
  align := x.align
  align_pos := x.align_pos
  align_dvd := x.align_dvd.mul_left n

/-- The offset of the second field of a `repr(C)` struct. -/
def secondField (x y : Layout) : Nat := roundUp x.size y.align

/-- A `repr(C)` struct of two fields, padded to the larger alignment. -/
def reprC (x y : Layout) : Layout where
  size := roundUp (secondField x y + y.size) (max x.align y.align)
  align := max x.align y.align
  align_pos := lt_max_of_lt_left x.align_pos
  align_dvd := dvd_roundUp _ _

/-- A `repr(transparent)` wrapper. -/
def transparent (x : Layout) : Layout := x

@[simp] theorem array_size (x : Layout) (n : Nat) : (x.array n).size = n * x.size := rfl
@[simp] theorem array_align (x : Layout) (n : Nat) : (x.array n).align = x.align := rfl
@[simp] theorem transparent_size (x : Layout) : x.transparent.size = x.size := rfl
@[simp] theorem transparent_align (x : Layout) : x.transparent.align = x.align := rfl

/-- A field of the same alignment follows without padding. -/
theorem secondField_of_align_eq {x y : Layout} (h : y.align = x.align) :
    secondField x y = x.size :=
  roundUp_of_dvd y.align_pos (h ▸ x.align_dvd)

theorem reprC_align_of_align_eq {x y : Layout} (h : y.align = x.align) :
    (reprC x y).align = x.align := by
  simp [reprC, h]

/-- Two fields of the same alignment leave no padding at the end either. -/
theorem reprC_size_of_align_eq {x y : Layout} (h : y.align = x.align) :
    (reprC x y).size = x.size + y.size := by
  have hdvd : x.align ∣ x.size + y.size := Nat.dvd_add x.align_dvd (h ▸ y.align_dvd)
  change roundUp (secondField x y + y.size) (max x.align y.align) = _
  rw [secondField_of_align_eq h, h, max_self]
  exact roundUp_of_dvd x.align_pos hdvd

end Layout

end ConstArray.Foundation
