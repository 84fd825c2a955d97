import Mathlib.Data.List.Range
import Mathlib.Data.Vector.Basic

/-! # Memory cells and codecs

A memory is a map from cell addresses to contents. A cell without contents is
uninitialized, or its value was moved out. A type is represented by the contents
of a fixed number of cells, of which not every combination need be a valid
value.
-/

namespace ConstArray.Foundation

/-- Memory cells that each hold at most one `T`. -/
abbrev Mem (T : Type) := Nat → Option T

namespace Mem

variable {T : Type}

def uninit : Mem T := fun _ => none

/-- The memory that holds the given contents at the given addresses. -/
def place (addresses : List Nat) (cells : List (Option T)) : Mem T := fun a =>
  ((addresses.zip cells).lookup a).join

def write (m : Mem T) (a : Nat) (x : T) : Mem T := fun b => if b = a then some x else m b

/-- The memory after `n` consecutive values were moved out of it. -/
def moveOut (m : Mem T) (base n : Nat) : Mem T := fun a =>
  if base ≤ a ∧ a < base + n then none else m a

/-- The contents of `n` consecutive cells. -/
def slice (m : Mem T) (base n : Nat) : List (Option T) :=
  (List.range n).map fun i => m (base + i)

@[simp] theorem length_slice (m : Mem T) (base n : Nat) : (m.slice base n).length = n := by
  simp [slice]

theorem slice_congr {m m' : Mem T} {base n : Nat}
    (h : ∀ i < n, m (base + i) = m' (base + i)) : m.slice base n = m'.slice base n :=
  List.map_congr_left fun i hi => h i (List.mem_range.mp hi)

/-- A part of consecutive contents. -/
theorem slice_part (m : Mem T) (base : Nat) {off n k : Nat} (h : off + k ≤ n) :
    m.slice (base + off) k = ((m.slice base n).drop off).take k := by
  apply List.ext_getElem
  · simp
    omega
  · intro i _ _
    simp [slice, Nat.add_assoc]

theorem slice_write (m : Mem T) (base n i : Nat) (x : T) :
    (m.write (base + i) x).slice base n = (m.slice base n).set i (some x) := by
  apply List.ext_getElem
  · simp
  · intro j hj _
    by_cases hij : i = j
    · simp [slice, write, hij]
    · simp [slice, write, hij, Ne.symm hij]

/-- What was moved out elsewhere is still there. -/
theorem slice_moveOut {m : Mem T} {base n base' n' : Nat}
    (h : base' + n' ≤ base ∨ base + n ≤ base') :
    (m.moveOut base' n').slice base n = m.slice base n :=
  slice_congr fun i hi => if_neg (by omega)

/-- The memory that holds `xs` from `start` on, and nothing else. -/
def holding (start : Nat) (xs : List T) : Mem T := fun a =>
  if start ≤ a then xs[a - start]? else none

@[simp] theorem holding_add (start i : Nat) (xs : List T) :
    holding start xs (start + i) = xs[i]? := by
  simp [holding]

theorem holding_of_lt {start a : Nat} (h : a < start) (xs : List T) :
    holding start xs a = none := if_neg (Nat.not_le.mpr h)

theorem holding_of_le {start a : Nat} {xs : List T} (h : start + xs.length ≤ a) :
    holding start xs a = none := by
  obtain ⟨i, rfl⟩ := Nat.exists_eq_add_of_le (Nat.le_of_add_right_le h)
  rw [holding_add, List.getElem?_eq_none (by omega)]

/-- Memories with the same contents from `start` on, and nothing before. -/
theorem eq_holding {m : Mem T} {start : Nat} {xs : List T} (hlt : ∀ a < start, m a = none)
    (hadd : ∀ i, m (start + i) = xs[i]?) : m = holding start xs := by
  funext a
  rcases Nat.lt_or_ge a start with h | h
  · rw [hlt a h, holding_of_lt h]
  · obtain ⟨i, rfl⟩ := Nat.exists_eq_add_of_le h
    rw [hadd, holding_add]

theorem slice_holding_left (start : Nat) (xs ys : List T) :
    (holding start (xs ++ ys)).slice start xs.length = xs.map some := by
  apply List.ext_getElem
  · simp
  · intro i hi _
    rw [length_slice] at hi
    simp [slice, List.getElem?_append_left hi, List.getElem?_eq_getElem hi]

theorem slice_holding_right (start : Nat) (xs ys : List T) :
    (holding start (xs ++ ys)).slice (start + xs.length) ys.length = ys.map some := by
  apply List.ext_getElem
  · simp
  · intro i hi _
    rw [length_slice] at hi
    simp [slice, Nat.add_assoc, List.getElem?_append_right (Nat.le_add_right _ _),
      List.getElem?_eq_getElem hi]

theorem moveOut_holding_left (start : Nat) (xs ys : List T) :
    (holding start (xs ++ ys)).moveOut start xs.length = holding (start + xs.length) ys := by
  apply eq_holding
  · intro a ha
    rw [moveOut]
    split
    · rfl
    · exact holding_of_lt (by omega) _
  · intro i
    rw [moveOut, if_neg (by omega), Nat.add_assoc, holding_add,
      List.getElem?_append_right (Nat.le_add_right _ _), Nat.add_sub_cancel_left]

theorem moveOut_holding_right (start : Nat) (xs ys : List T) :
    (holding start (xs ++ ys)).moveOut (start + xs.length) ys.length = holding start xs := by
  apply eq_holding
  · intro a ha
    rw [moveOut, if_neg (by omega), holding_of_lt ha]
  · intro i
    rw [moveOut]
    split
    · rw [List.getElem?_eq_none (by omega)]
    · rw [holding_add]
      rcases Nat.lt_or_ge i xs.length with h | h
      · exact List.getElem?_append_left h
      · rw [List.getElem?_eq_none (by rw [List.length_append]; omega),
          List.getElem?_eq_none h]

theorem write_holding_end (start : Nat) (xs : List T) (x : T) :
    (holding start xs).write (start + xs.length) x = holding start (xs ++ [x]) := by
  apply eq_holding
  · intro a ha
    rw [write, if_neg (by omega), holding_of_lt ha]
  · intro i
    simp only [write, holding_add, Nat.add_right_inj]
    rcases Nat.lt_trichotomy i xs.length with hi | hi | hi
    · rw [if_neg (Nat.ne_of_lt hi), List.getElem?_append_left hi]
    · rw [if_pos hi, hi, List.getElem?_concat_length]
    · rw [if_neg (Nat.ne_of_gt hi), List.getElem?_eq_none (Nat.le_of_lt hi),
        List.getElem?_eq_none (by rw [List.length_append]; exact hi)]

theorem write_holding_set (start : Nat) (xs : List T) {j : Nat} (hj : j < xs.length) (x : T) :
    (holding start xs).write (start + j) x = holding start (xs.set j x) := by
  apply eq_holding
  · intro a ha
    rw [write, if_neg (by omega), holding_of_lt ha]
  · intro i
    simp only [write, holding_add, Nat.add_right_inj, List.getElem?_set]
    by_cases h : i = j
    · rw [if_pos h, if_pos h.symm, if_pos (h ▸ hj)]
    · rw [if_neg h, if_neg (Ne.symm h)]

/-- The values of `n` consecutive cells, all of which must be initialized. -/
def values (m : Mem T) (base n : Nat) : Option (List T) := (m.slice base n).mapM id

theorem mapM_id_eq_some {cells : List (Option T)} {xs : List T} :
    cells.mapM id = some xs ↔ cells = xs.map some := by
  induction cells generalizing xs with
  | nil => cases xs <;> simp
  | cons cell cells ih =>
      cases cell with
      | none => cases xs <;> simp
      | some x =>
          simp only [List.mapM_cons, id_eq, Option.bind_eq_bind, Option.bind_some,
            Option.bind_eq_some_iff, Option.pure_def, Option.some.injEq, ih]
          constructor
          · rintro ⟨ys, rfl, rfl⟩
            rfl
          · intro h
            cases xs with
            | nil => simp at h
            | cons y ys =>
                rw [List.map_cons, List.cons.injEq, Option.some.injEq] at h
                exact ⟨ys, h.2, by rw [h.1]⟩

theorem values_eq_some {m : Mem T} {base n : Nat} {xs : List T} :
    m.values base n = some xs ↔ m.slice base n = xs.map some := mapM_id_eq_some

theorem lookup_zip_range' (cells : List (Option T)) (start a : Nat) :
    ((List.range' start cells.length).zip cells).lookup (start + a) = cells[a]? := by
  induction cells generalizing start a with
  | nil => simp
  | cons cell cells ih =>
      rw [List.length_cons, List.range'_succ, List.zip_cons_cons, List.lookup_cons]
      cases a with
      | zero => simp
      | succ a =>
          have hne : (start + (a + 1) == start) = false := by
            rw [beq_eq_false_iff_ne]
            omega
          rw [hne, List.getElem?_cons_succ, ← ih (start + 1) a, Nat.add_assoc start 1 a,
            Nat.add_comm 1 a]

/-- Contents at consecutive addresses from zero. -/
@[simp] theorem place_range (cells : List (Option T)) (a : Nat) :
    place (List.range cells.length) cells a = cells[a]?.join := by
  rw [place, List.range_eq_range', ← Nat.zero_add a, lookup_zip_range', Nat.zero_add]

/-- Reading a part of consecutive contents. -/
theorem slice_place_range (cells : List (Option T)) {base n : Nat}
    (h : base + n ≤ cells.length) :
    (place (List.range cells.length) cells).slice base n = (cells.drop base).take n := by
  apply List.ext_getElem
  · simp only [length_slice, List.length_take, List.length_drop]
    omega
  · intro i hi _
    rw [length_slice] at hi
    have hget : base + i < cells.length := by omega
    simp [slice, place_range, hget]

end Mem

/-- How values of `X` are represented by `width` cells. `decode` fails on
contents that are not a valid value. -/
structure Codec (T X : Type) where
  width : Nat
  encode : X → List (Option T)
  decode : List (Option T) → Option X
  length_encode : ∀ x, (encode x).length = width
  decode_encode : ∀ x, decode (encode x) = some x
  encode_of_decode : ∀ {cells x}, decode cells = some x → encode x = cells

namespace Codec

variable {T X Y : Type}

/-- A cell that must hold a value. -/
def cell : Codec T T where
  width := 1
  encode x := [some x]
  decode
    | [some x] => some x
    | _ => none
  length_encode _ := rfl
  decode_encode _ := rfl
  encode_of_decode {cells x} h := by
    match cells, h with
    | [some y], h => rw [Option.some.inj h]

/-- A cell that may be uninitialized. -/
def maybeUninit : Codec T (Option T) where
  width := 1
  encode x := [x]
  decode
    | [x] => some x
    | _ => none
  length_encode _ := rfl
  decode_encode _ := rfl
  encode_of_decode {cells x} h := by
    match cells, h with
    | [y], h => rw [Option.some.inj h]

/-- The same representation under another name. -/
def ofEquiv (c : Codec T X) (f : X ≃ Y) : Codec T Y where
  width := c.width
  encode y := c.encode (f.symm y)
  decode cells := (c.decode cells).map f
  length_encode _ := c.length_encode _
  decode_encode y := by simp [c.decode_encode]
  encode_of_decode {cells y} h := by
    obtain ⟨x, hx, rfl⟩ := Option.map_eq_some_iff.mp h
    rw [f.symm_apply_apply, c.encode_of_decode hx]

/-- One value after the other. -/
def pair (c : Codec T X) (d : Codec T Y) : Codec T (X × Y) where
  width := c.width + d.width
  encode xy := c.encode xy.1 ++ d.encode xy.2
  decode cells := do
    let x ← c.decode (cells.take c.width)
    let y ← d.decode (cells.drop c.width)
    return (x, y)
  length_encode xy := by rw [List.length_append, c.length_encode, d.length_encode]
  decode_encode xy := by
    have hlen := c.length_encode xy.1
    rw [List.take_left' hlen, List.drop_left' hlen, c.decode_encode, d.decode_encode]
    rfl
  encode_of_decode {cells xy} h := by
    simp only [Option.bind_eq_bind, Option.bind_eq_some_iff, Option.pure_def,
      Option.some.injEq] at h
    obtain ⟨x, hx, y, hy, rfl⟩ := h
    rw [c.encode_of_decode hx, d.encode_of_decode hy, List.take_append_drop]

/-- Decode `n` consecutive values. -/
def decodeVector (c : Codec T X) : (n : Nat) → List (Option T) → Option (List.Vector X n)
  | 0, cells => if cells = [] then some .nil else none
  | n + 1, cells => do
      let x ← c.decode (cells.take c.width)
      let xs ← c.decodeVector n (cells.drop c.width)
      return x ::ᵥ xs

theorem decodeVector_encode (c : Codec T X) {n : Nat} (v : List.Vector X n) :
    c.decodeVector n (v.toList.flatMap c.encode) = some v := by
  induction n with
  | zero =>
      rw [v.eq_nil]
      rfl
  | succ n ih =>
      have hlen := c.length_encode v.head
      rw [← v.cons_head_tail, List.Vector.toList_cons, List.flatMap_cons, decodeVector,
        List.take_left' hlen, List.drop_left' hlen, c.decode_encode, ih]
      rfl

theorem encode_of_decodeVector (c : Codec T X) {n : Nat} {cells : List (Option T)}
    {v : List.Vector X n} (h : c.decodeVector n cells = some v) :
    v.toList.flatMap c.encode = cells := by
  induction n generalizing cells with
  | zero =>
      rw [decodeVector, Option.ite_none_right_eq_some] at h
      rw [v.eq_nil, h.1]
      rfl
  | succ n ih =>
      simp only [decodeVector, Option.bind_eq_bind, Option.bind_eq_some_iff, Option.pure_def,
        Option.some.injEq] at h
      obtain ⟨x, hx, xs, hxs, rfl⟩ := h
      rw [List.Vector.toList_cons, List.flatMap_cons, c.encode_of_decode hx, ih hxs,
        List.take_append_drop]

/-- `n` consecutive values. -/
def vector (c : Codec T X) (n : Nat) : Codec T (List.Vector X n) where
  width := n * c.width
  encode v := v.toList.flatMap c.encode
  decode := c.decodeVector n
  length_encode v := by simp [List.length_flatMap, c.length_encode]
  decode_encode := c.decodeVector_encode
  encode_of_decode := c.encode_of_decodeVector

end Codec

end ConstArray.Foundation
