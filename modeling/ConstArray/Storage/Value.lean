import ConstArray.Foundation.Memory
import ConstArray.Storage.Layout
import Mathlib.Data.Set.List

/-! # Array values and their memory image

The values of `S::ArrayType<T>` are nested like the type. Their elements in
structural order are `Array.flat`, and their memory image places each of them at
the offset that the layout rules give it. Unsafe code moves between the two: it
reads a value of one type from the image of another.

Addresses count elements instead of bytes, that is, the layout is computed for an
element type of size one. By `Ty.laidOutAs`, an element at address `k` is the one
at byte offset `k * size_of::<T>()` for every element type.
-/

namespace ConstArray

open Foundation

/-- Two arrays stored one after the other. -/
structure Concat (A B : Type) where
  fst : A
  snd : B

/-- An array `O` of arrays `I`. -/
structure Repeat (I O : Type) where
  inner : O

/-- The values of `S::ArrayType<T>`. -/
def Size.ArrayType : ConcreteSize → Type → Type
  | .param p, _ => p.elim
  | .len n, T => List.Vector T n
  | .sum a b, T => Concat (a.ArrayType T) (b.ArrayType T)
  | .prod a b, T => Repeat (b.ArrayType T) (a.ArrayType (b.ArrayType T))

/-- `Array<T, S>`. -/
structure Array (T : Type) (S : ConcreteSize) where
  storage : S.ArrayType T

/-- The values `X` of a type, with its layout and its representation by cells
that hold a `T`. -/
structure TypeRepr (T X : Type) where
  ty : Ty
  codec : Codec T X
  width_eq : codec.width = ty.count

namespace TypeRepr

variable {T X Y : Type}

/-- The memory of a value, at address zero. -/
def image (r : TypeRepr T X) (x : X) : Mem T := .place (r.ty.offsets .unit) (r.codec.encode x)

/-- `ptr::read` of a value, which fails where the memory holds no valid one. -/
def load (r : TypeRepr T X) (m : Mem T) (base : Nat) : Option X :=
  r.codec.decode ((r.ty.offsets .unit).map fun o => m (base + o))

def elem : TypeRepr T T := ⟨.elem, .cell, rfl⟩

/-- `MaybeUninit<T>`, laid out as `T`. -/
def maybeUninit : TypeRepr T (Option T) := ⟨.elem, .maybeUninit, rfl⟩

def array (r : TypeRepr T X) (n : Nat) : TypeRepr T (List.Vector X n) :=
  ⟨.array r.ty n, r.codec.vector n, congrArg (n * ·) r.width_eq⟩

def concat (r : TypeRepr T X) (q : TypeRepr T Y) : TypeRepr T (Concat X Y) :=
  ⟨.concat r.ty q.ty,
    (r.codec.pair q.codec).ofEquiv
      ⟨fun xy => ⟨xy.1, xy.2⟩, fun c => (c.fst, c.snd), fun _ => rfl, fun _ => rfl⟩,
    congrArg₂ (· + ·) r.width_eq q.width_eq⟩

def «repeat» (i : TypeRepr T X) (o : TypeRepr T Y) : TypeRepr T (Repeat X Y) :=
  ⟨.repeat i.ty o.ty,
    o.codec.ofEquiv ⟨Repeat.mk, Repeat.inner, fun _ => rfl, fun _ => rfl⟩, o.width_eq⟩

end TypeRepr

/-- The representation of `S::ArrayType<X>`. -/
def Size.repr {T X : Type} : (S : ConcreteSize) → TypeRepr T X → TypeRepr T (S.ArrayType X)
  | .param p, _ => p.elim
  | .len n, r => r.array n
  | .sum a b, r => (a.repr r).concat (b.repr r)
  | .prod a b, r => .repeat (b.repr r) (a.repr (b.repr r))

/-- The representation of `Array<X, S>`. -/
def TypeRepr.arr {T X : Type} (S : ConcreteSize) (r : TypeRepr T X) : TypeRepr T (Array X S) :=
  ⟨.wrap (S.repr r).ty,
    (S.repr r).codec.ofEquiv ⟨Array.mk, Array.storage, fun _ => rfl, fun _ => rfl⟩,
    (S.repr r).width_eq⟩

/-- The type of the values is the type of the layout theorem. -/
theorem Size.repr_ty {T X : Type} (S : ConcreteSize) (r : TypeRepr T X) :
    (S.repr r).ty = S.arrayType r.ty := by
  induction S generalizing X with
  | param p => exact p.elim
  | len n => rfl
  | sum a b iha ihb => exact congrArg₂ Ty.concat (iha r) (ihb r)
  | prod a b iha ihb =>
      exact congrArg₂ Ty.repeat (ihb r) ((iha (b.repr r)).trans (congrArg a.arrayType (ihb r)))

@[simp] theorem TypeRepr.arr_ty {T X : Type} (S : ConcreteSize) (r : TypeRepr T X) :
    (r.arr S).ty = .arr S r.ty := congrArg Ty.wrap (S.repr_ty r)

/-! ## Elements in structural order -/

/-- The elements in structural order: left part before right part, chunk by
chunk. -/
def Size.flatten {X : Type} : (S : ConcreteSize) → S.ArrayType X → List X
  | .param p, _ => p.elim
  | .len _, v => v.toList
  | .sum a b, c => a.flatten c.fst ++ b.flatten c.snd
  | .prod a b, r => (a.flatten r.inner).flatMap b.flatten

@[simp] theorem Size.flatten_sum {X : Type} {p q : ConcreteSize} (c : Concat _ _) :
    (Size.sum p q).flatten (X := X) c = p.flatten c.fst ++ q.flatten c.snd := rfl

@[simp] theorem Size.flatten_prod {X : Type} {p q : ConcreteSize} (r : Repeat _ _) :
    (Size.prod p q).flatten (X := X) r = (p.flatten r.inner).flatMap q.flatten := rfl

/-- The elements of an array in structural order. -/
def Array.flat {X : Type} {S : ConcreteSize} (a : Array X S) : List X := S.flatten a.storage

theorem Size.encode_repr {T X : Type} (S : ConcreteSize) (r : TypeRepr T X) (a : S.ArrayType X) :
    (S.repr r).codec.encode a = (S.flatten a).flatMap r.codec.encode := by
  induction S generalizing X with
  | param p => exact p.elim
  | len n => rfl
  | sum p q ihp ihq =>
      change (p.repr r).codec.encode a.fst ++ (q.repr r).codec.encode a.snd = _
      rw [ihp, ihq, flatten, List.flatMap_append]
  -- the outer storage holds inner storages: the hypothesis is used at their type
  | prod p q ihp ihq =>
      change (p.repr (q.repr r)).codec.encode a.inner = _
      rw [ihp, flatten, List.flatMap_assoc]
      exact congrArg (List.flatMap · _) (funext fun i => ihq r i)

@[simp] theorem TypeRepr.encode_arr {T X : Type} {S : ConcreteSize} (r : TypeRepr T X)
    (a : Array X S) :
    (r.arr S).codec.encode a = a.flat.flatMap r.codec.encode :=
  S.encode_repr r a.storage

theorem Size.length_flatten {X : Type} (S : ConcreteSize) (a : S.ArrayType X) :
    (S.flatten a).length = S.count := by
  induction S generalizing X with
  | param p => exact p.elim
  | len n => exact List.Vector.toList_length a
  | sum p q ihp ihq => rw [flatten, List.length_append, ihp, ihq, count_sum]
  | prod p q ihp ihq =>
      rw [flatten, List.length_flatMap, List.map_congr_left fun i _ => ihq i, List.map_const',
        List.sum_replicate, ihp, Nat.nsmul_eq_mul, count_prod]

@[simp] theorem Array.length_flat {X : Type} {S : ConcreteSize} (a : Array X S) :
    a.flat.length = S.count := S.length_flatten a.storage

/-- Cut a list into `n` blocks of `m` elements. -/
theorem exists_blocks {X : Type} {n m : Nat} {l : List X} (h : l.length = n * m) :
    ∃ blocks : List (List X), blocks.length = n ∧ (∀ b ∈ blocks, b.length = m) ∧
      blocks.flatten = l := by
  induction n generalizing l with
  | zero =>
      rw [Nat.zero_mul] at h
      exact ⟨[], rfl, by simp, (List.eq_nil_of_length_eq_zero h).symm⟩
  | succ n ih =>
      rw [Nat.succ_mul] at h
      obtain ⟨blocks, hlength, hblocks, hflatten⟩ := ih (l := l.drop m) (by simp; omega)
      refine ⟨l.take m :: blocks, by simp [hlength], ?_, by simp [hflatten]⟩
      intro b hb
      rcases List.mem_cons.mp hb with rfl | hb
      · simp
        omega
      · exact hblocks b hb

/-- A list of values of `f` is the image of a list. -/
theorem exists_map_eq {X Y : Type} {f : X → Y} {l : List Y} (h : ∀ y ∈ l, ∃ x, f x = y) :
    ∃ xs : List X, xs.map f = l :=
  (Set.range_list_map f).symm.subset h

/-- Every list of the right length is the elements of some storage, whatever the
structure. -/
theorem Size.exists_flatten_eq {X : Type} (S : ConcreteSize) {l : List X}
    (h : l.length = S.count) : ∃ a : S.ArrayType X, S.flatten a = l := by
  induction S generalizing X with
  | param p => exact p.elim
  | len n => exact ⟨⟨l, h⟩, rfl⟩
  | sum p q ihp ihq =>
      rw [count_sum] at h
      obtain ⟨x, hx⟩ := ihp (l := l.take p.count) (by simp; omega)
      obtain ⟨y, hy⟩ := ihq (l := l.drop p.count) (by simp; omega)
      exact ⟨⟨x, y⟩, by rw [flatten_sum, hx, hy, List.take_append_drop]⟩
  | prod p q ihp ihq =>
      rw [count_prod] at h
      obtain ⟨blocks, hlength, hblocks, hflatten⟩ := exists_blocks h
      -- store each block, then store the list of these chunks
      obtain ⟨chunks, rfl⟩ := exists_map_eq fun b hb => ihq (hblocks b hb)
      obtain ⟨outer, houter⟩ := ihp (by rwa [List.length_map] at hlength)
      exact ⟨⟨outer⟩, by rw [flatten_prod, houter, ← hflatten, List.flatMap_def]⟩

/-! ## Memory images -/

theorem TypeRepr.image_eq {T X : Type} (r : TypeRepr T X) (x : X) (a : Nat) :
    r.image x a = (r.codec.encode x)[a]?.join := by
  have hoffsets : r.ty.offsets .unit = List.range (r.codec.encode x).length := by
    rw [(Ty.laidOutAs .unit r.ty).offsets_eq, r.codec.length_encode, r.width_eq]
    simp [Layout.unit]
  rw [image, hoffsets, Mem.place_range]

theorem TypeRepr.load_eq {T X : Type} (r : TypeRepr T X) (m : Mem T) (base : Nat) :
    r.load m base = r.codec.decode (m.slice base r.codec.width) := by
  rw [load, (Ty.laidOutAs .unit r.ty).offsets_eq, ← r.width_eq]
  simp [Layout.unit, Mem.slice]

/-- The cells of a part of a value. -/
theorem TypeRepr.slice_image {T X : Type} (r : TypeRepr T X) (x : X) {base n : Nat}
    (h : base + n ≤ r.codec.width) :
    (r.image x).slice base n = ((r.codec.encode x).drop base).take n := by
  have himage : r.image x =
      Mem.place (List.range (r.codec.encode x).length) (r.codec.encode x) := by
    funext a
    rw [r.image_eq, Mem.place_range]
  rw [himage, Mem.slice_place_range _ (by rwa [r.codec.length_encode])]

namespace Array

variable {X : Type} {S : ConcreteSize}

/-- The memory of an array, in units of its elements. -/
def toMem (a : Array X S) : Mem X := (TypeRepr.elem.arr S).image a

/-- Read an array from memory, in units of its elements. -/
def load (S : ConcreteSize) (m : Mem X) (base : Nat) : Option (Array X S) :=
  (TypeRepr.elem.arr S).load m base

theorem encode_elem_arr (a : Array X S) :
    (TypeRepr.elem.arr S).codec.encode a = a.flat.map some := by
  rw [TypeRepr.encode_arr, List.map_eq_flatMap]
  rfl

@[simp] theorem toMem_apply (a : Array X S) (i : Nat) : a.toMem i = a.flat[i]? := by
  rw [toMem, TypeRepr.image_eq, encode_elem_arr, List.getElem?_map]
  cases a.flat[i]? <;> rfl

/-- The array with the given elements, or `none` if there are not exactly
`S::USIZE` of them. -/
def ofFlat (S : ConcreteSize) (l : List X) : Option (Array X S) :=
  (TypeRepr.elem.arr S).codec.decode (l.map some)

theorem ofFlat_eq_some {l : List X} {a : Array X S} : ofFlat S l = some a ↔ a.flat = l := by
  constructor
  · intro h
    have hcells := (TypeRepr.elem.arr S).codec.encode_of_decode h
    rw [encode_elem_arr] at hcells
    exact List.map_injective_iff.mpr (Option.some_injective X) hcells
  · rintro rfl
    rw [ofFlat, ← encode_elem_arr, (TypeRepr.elem.arr S).codec.decode_encode]

@[simp] theorem ofFlat_flat (a : Array X S) : ofFlat S a.flat = some a := ofFlat_eq_some.mpr rfl

theorem exists_ofFlat {l : List X} (h : l.length = S.count) :
    ∃ a : Array X S, ofFlat S l = some a ∧ a.flat = l := by
  obtain ⟨storage, hstorage⟩ := S.exists_flatten_eq h
  exact ⟨⟨storage⟩, ofFlat_eq_some.mpr hstorage, hstorage⟩

/-- Reading an array succeeds exactly when all of its cells are initialized. -/
theorem load_eq_some {m : Mem X} {base : Nat} {a : Array X S} :
    load S m base = some a ↔ m.slice base S.count = a.flat.map some := by
  have hwidth : (TypeRepr.elem.arr S : TypeRepr X _).codec.width = S.count := by
    simp [TypeRepr.width_eq, TypeRepr.elem, Ty.count]
  rw [load, TypeRepr.load_eq, hwidth, ← encode_elem_arr]
  constructor
  · exact fun h => ((TypeRepr.elem.arr S).codec.encode_of_decode h).symm
  · intro h
    rw [h, (TypeRepr.elem.arr S).codec.decode_encode]

end Array

end ConstArray
