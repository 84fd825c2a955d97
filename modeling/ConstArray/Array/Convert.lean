import ConstArray.Size.Proof
import ConstArray.Storage.Value

/-! # Owned conversions

Unsafe code reinterprets a whole storage at once, or reads a part of it through a
cast pointer. Each conversion is such a read of the source's memory, and fails
where the memory holds no valid value of the target: that is the undefined
behaviour the safety comments rule out. By the layout of the storage, a
conversion between sizes of the same length keeps the flat sequence.
-/

namespace ConstArray

open Foundation

variable {T X Y : Type} {A B C S S2 : ConcreteSize}

/-- `transmute_layout`: read `src` as a value of a type with the same layout. -/
def transmuteLayout (r : TypeRepr T X) (q : TypeRepr T Y) (src : X) : Option Y :=
  if (r.ty.layout .unit).size = (q.ty.layout .unit).size ∧
      (r.ty.layout .unit).align = (q.ty.layout .unit).align then
    q.load (r.image src) 0
  else none

theorem TypeRepr.size_layout (r : TypeRepr T X) : (r.ty.layout .unit).size = r.codec.width := by
  rw [(Ty.laidOutAs .unit r.ty).size_eq, r.width_eq]
  exact Nat.mul_one _

theorem TypeRepr.align_layout (r : TypeRepr T X) : (r.ty.layout .unit).align = 1 :=
  (Ty.laidOutAs .unit r.ty).align_eq

theorem TypeRepr.width_arr (r : TypeRepr T X) :
    (r.arr S).codec.width = S.count * r.codec.width := by
  rw [(r.arr S).width_eq, r.arr_ty, Ty.count_arr, r.width_eq]

/-- Types of the same width have the same layout, and a transmute between them
decodes the cells of one as the other. -/
theorem transmuteLayout_eq_decode (r : TypeRepr T X) (q : TypeRepr T Y)
    (h : r.codec.width = q.codec.width) (src : X) :
    transmuteLayout r q src = q.codec.decode (r.codec.encode src) := by
  have hlayout : (r.ty.layout .unit).size = (q.ty.layout .unit).size ∧
      (r.ty.layout .unit).align = (q.ty.layout .unit).align := by
    simp only [TypeRepr.size_layout, TypeRepr.align_layout, h, and_self]
  have hencode : (r.codec.encode src).length ≤ q.codec.width := by
    rw [r.codec.length_encode, h]
  rw [transmuteLayout, if_pos hlayout, TypeRepr.load_eq, TypeRepr.slice_image r src (by omega),
    List.drop_zero, List.take_of_length_le hencode]

theorem transmuteLayout_eq_none (r : TypeRepr T X) (q : TypeRepr T Y)
    (h : r.codec.width ≠ q.codec.width) (src : X) : transmuteLayout r q src = none := by
  refine if_neg fun hlayout => h ?_
  rw [← TypeRepr.size_layout, ← TypeRepr.size_layout, hlayout.1]

namespace Array

/-! ## The conversions -/

/-- `Array::cast`. -/
def cast (_ : SameLen S S2) (a : Array X S) : Option (Array X S2) :=
  transmuteLayout (TypeRepr.elem.arr S) (TypeRepr.elem.arr S2) a

/-- `Array::try_cast`. -/
def tryCast (w : Nat) (S2 : ConcreteSize) (a : Array X S) :
    Option (Except (Array X S) (Array X S2)) := do
  match ← SameLen.tryNew w S S2 with
  | some proof => return .ok (← a.cast proof)
  | none => return .error a

/-- `Array::cast_checked`. -/
def castChecked (w : Nat) (S2 : ConcreteSize) (a : Array X S) : Option (Array X S2) := do
  a.cast (← SameLen.checked w S S2)

/-- `Array::concat`. -/
def concat (a : Array X S) (other : Array X B) : Option (Array X (.sum S B)) :=
  transmuteLayout ((TypeRepr.elem.arr S).concat (TypeRepr.elem.arr B))
    (TypeRepr.elem.arr (.sum S B)) (Concat.mk a other)

/-- `Array::parts`: read both fields of the `Concat`. -/
def parts (a : Array X (.sum A B)) : Option (Array X A × Array X B) := do
  let me := a.toMem
  let fst ← load A me 0
  let snd ← load B me
    (Layout.secondField ((A.arrayType .elem).layout .unit) ((B.arrayType .elem).layout .unit))
  return (fst, snd)

/-- `Array::from_chunks`. -/
def fromChunks (chunks : Array (Array X B) A) : Option (Array X (.prod A B)) :=
  transmuteLayout ((TypeRepr.elem.arr B).arr A) (TypeRepr.elem.arr (.prod A B)) chunks

/-- `Array::into_chunks`. -/
def intoChunks (a : Array X (.prod A B)) : Option (Array (Array X B) A) :=
  transmuteLayout (TypeRepr.elem.arr (.prod A B)) ((TypeRepr.elem.arr B).arr A) a

/-- `Array::new`. -/
def new {n : Nat} (arr : List.Vector X n) : Array X (.len n) := ⟨arr⟩

/-- `Array::into_array`: `transmute_layout` to the plain array. -/
def intoArray {n : Nat} (a : Array X (.len n)) : Option (List.Vector X n) :=
  transmuteLayout (TypeRepr.elem.arr (.len n)) (TypeRepr.elem.array n) a

end Array

/-! ## What they do to the flat sequence -/

@[simp] theorem TypeRepr.width_elem_arr :
    (TypeRepr.elem.arr S : TypeRepr X _).codec.width = S.count := by
  simp [TypeRepr.width_arr, TypeRepr.elem, Codec.cell]

/-- The chunks' elements in order. -/
@[simp] theorem Array.encode_chunks (c : Array (Array X B) A) :
    ((TypeRepr.elem.arr B).arr A).codec.encode c = (c.flat.flatMap flat).map some := by
  rw [TypeRepr.encode_arr, List.map_flatMap]
  exact congrArg (List.flatMap · c.flat) (funext encode_elem_arr)

namespace Array

/-- A cast between sizes of the same length keeps the flat sequence. -/
theorem cast_eq (p : SameLen S S2) (h : S.count = S2.count) (a : Array X S) :
    a.cast p = ofFlat S2 a.flat := by
  rw [cast, transmuteLayout_eq_decode _ _ (by simp [h]), encode_elem_arr, ofFlat]

theorem exists_cast (p : SameLen S S2) (h : S.count = S2.count) (a : Array X S) :
    ∃ b, a.cast p = some b ∧ b.flat = a.flat := by
  rw [cast_eq p h]
  exact exists_ofFlat (by rw [length_flat, h])

theorem cast_eq_some {p : SameLen S S2} (h : S.count = S2.count) {a : Array X S}
    {b : Array X S2} : a.cast p = some b ↔ b.flat = a.flat := by
  rw [cast_eq p h, ofFlat_eq_some]

/-- A proof that violates its invariant makes the cast undefined. -/
theorem cast_eq_none (p : SameLen S S2) (h : S.count ≠ S2.count) (a : Array X S) :
    a.cast p = none :=
  transmuteLayout_eq_none _ _ (by simpa using h) a

theorem tryCast_eq {w : Nat} (hS : S.Evaluates w) (hS2 : S2.Evaluates w) (a : Array X S) :
    tryCast w S2 a = if S.count = S2.count then Except.ok <$> ofFlat S2 a.flat
      else some (.error a) := by
  have htry : SameLen.tryNew w S S2 = some (if S.count = S2.count then some ⟨⟩ else none) := by
    rw [SameLen.tryNew, hS, hS2]
    rfl
  rw [tryCast, htry]
  by_cases h : S.count = S2.count
  · rw [if_pos h, if_pos h, ← cast_eq ⟨⟩ h, Option.bind_eq_bind, Option.bind_some]
    dsimp only
    cases a.cast (⟨⟩ : SameLen S S2) <;> rfl
  · rw [if_neg h, if_neg h]
    rfl

theorem concat_eq (a : Array X S) (b : Array X B) :
    a.concat b = ofFlat (.sum S B) (a.flat ++ b.flat) := by
  have hwidth : ((TypeRepr.elem.arr S).concat (TypeRepr.elem.arr B) : TypeRepr X _).codec.width =
      S.count + B.count :=
    congrArg₂ (· + ·) TypeRepr.width_elem_arr TypeRepr.width_elem_arr
  rw [concat, transmuteLayout_eq_decode _ _ (by rw [hwidth]; simp), ofFlat, List.map_append,
    ← encode_elem_arr, ← encode_elem_arr]
  rfl

/-- The cells of a part of an array. -/
theorem slice_toMem (a : Array X S) {base n : Nat} (h : base + n ≤ S.count) :
    a.toMem.slice base n = ((a.flat.drop base).take n).map some := by
  rw [toMem, TypeRepr.slice_image _ _ (by simpa using h), encode_elem_arr, ← List.map_drop,
    ← List.map_take]

/-- Reading a part of an array as another array. -/
theorem load_toMem (a : Array X S) {base : Nat} (h : base + B.count ≤ S.count) :
    load B a.toMem base = ofFlat B ((a.flat.drop base).take B.count) := by
  apply Option.ext
  intro b
  rw [load_eq_some, slice_toMem a h, ofFlat_eq_some]
  exact ⟨fun heq => (List.map_injective_iff.mpr (Option.some_injective X) heq).symm,
    fun heq => by rw [heq]⟩

theorem parts_eq_some {a : Array X (.sum A B)} {fst : Array X A} {snd : Array X B} :
    a.parts = some (fst, snd) ↔ a.flat = fst.flat ++ snd.flat := by
  have hlength : a.flat.length = A.count + B.count := a.length_flat
  have hrest : (a.flat.drop A.count).take B.count = a.flat.drop A.count :=
    List.take_of_length_le (by rw [List.length_drop, hlength]; omega)
  simp only [parts, Size.secondField_arrayType, Ty.count, Nat.mul_one, Option.bind_eq_bind,
    Option.bind_eq_some_iff, Option.pure_def, Option.some.injEq, Prod.mk.injEq]
  rw [load_toMem a (by simp), load_toMem a (by simp), List.drop_zero, hrest]
  constructor
  · rintro ⟨x, hx, y, hy, rfl, rfl⟩
    rw [ofFlat_eq_some.mp hx, ofFlat_eq_some.mp hy, List.take_append_drop]
  · intro h
    refine ⟨fst, ?_, snd, ?_, rfl, rfl⟩
    · rw [ofFlat_eq_some, h, List.take_left' fst.length_flat]
    · rw [ofFlat_eq_some, h, List.drop_left' fst.length_flat]

theorem exists_parts (a : Array X (.sum A B)) :
    ∃ fst snd, a.parts = some (fst, snd) ∧ a.flat = fst.flat ++ snd.flat := by
  have hlength : a.flat.length = A.count + B.count := a.length_flat
  obtain ⟨fst, -, hfst⟩ := exists_ofFlat (S := A) (l := a.flat.take A.count) (by simp)
  obtain ⟨snd, -, hsnd⟩ := exists_ofFlat (S := B) (l := a.flat.drop A.count) (by simp)
  have hflat : a.flat = fst.flat ++ snd.flat := by rw [hfst, hsnd, List.take_append_drop]
  exact ⟨fst, snd, parts_eq_some.mpr hflat, hflat⟩

theorem width_chunks :
    ((TypeRepr.elem.arr B).arr A : TypeRepr X _).codec.width = (Size.prod A B).count := by
  rw [TypeRepr.width_arr, TypeRepr.width_elem_arr, Size.count_prod]

theorem fromChunks_eq (c : Array (Array X B) A) :
    c.fromChunks = ofFlat (.prod A B) (c.flat.flatMap flat) := by
  rw [fromChunks, transmuteLayout_eq_decode _ _ (by rw [width_chunks]; simp), encode_chunks,
    ofFlat]

theorem fromChunks_eq_some {c : Array (Array X B) A} {a : Array X (.prod A B)} :
    c.fromChunks = some a ↔ a.flat = c.flat.flatMap flat := by
  rw [fromChunks_eq, ofFlat_eq_some]

/-- The length of an array of chunks. -/
theorem length_flatMap_flat (c : Array (Array X B) A) :
    (c.flat.flatMap flat).length = (Size.prod A B).count := by
  rw [List.length_flatMap, List.map_congr_left fun b _ => b.length_flat, List.map_const',
    List.sum_replicate, length_flat, Nat.nsmul_eq_mul, Size.count_prod]

theorem exists_fromChunks (c : Array (Array X B) A) :
    ∃ a, c.fromChunks = some a ∧ a.flat = c.flat.flatMap flat := by
  rw [fromChunks_eq]
  exact exists_ofFlat (length_flatMap_flat c)

theorem intoChunks_eq_some {a : Array X (.prod A B)} {c : Array (Array X B) A} :
    a.intoChunks = some c ↔ c.flat.flatMap flat = a.flat := by
  rw [intoChunks, transmuteLayout_eq_decode _ _ (by rw [width_chunks]; simp), encode_elem_arr]
  constructor
  · intro h
    have hcells := ((TypeRepr.elem.arr B).arr A).codec.encode_of_decode h
    rw [encode_chunks] at hcells
    exact List.map_injective_iff.mpr (Option.some_injective X) hcells
  · intro h
    rw [← h, ← encode_chunks, ((TypeRepr.elem.arr B).arr A).codec.decode_encode]

/-- The storage of a `Prod` already is an array of chunks. -/
theorem exists_intoChunks (a : Array X (.prod A B)) :
    ∃ c, a.intoChunks = some c ∧ c.flat.flatMap flat = a.flat := by
  obtain ⟨blocks, hlength, hblocks, hflatten⟩ :=
    exists_blocks (n := A.count) (m := B.count) (l := a.flat) (by simp)
  obtain ⟨chunks, rfl⟩ := exists_map_eq (f := flat) fun b hb => by
    obtain ⟨chunk, -, hchunk⟩ := exists_ofFlat (S := B) (hblocks b hb)
    exact ⟨chunk, hchunk⟩
  obtain ⟨c, -, hc⟩ := exists_ofFlat (S := A) (l := chunks) (by simpa using hlength)
  have hflat : c.flat.flatMap flat = a.flat := by rw [hc, ← hflatten, List.flatMap_def]
  exact ⟨c, intoChunks_eq_some.mpr hflat, hflat⟩

@[simp] theorem flat_new {n : Nat} (arr : List.Vector X n) : (new arr).flat = arr.toList := rfl

theorem intoArray_eq_some {n : Nat} {a : Array X (.len n)} {arr : List.Vector X n} :
    a.intoArray = some arr ↔ arr.toList = a.flat := by
  have hwidth : (TypeRepr.elem.array n : TypeRepr X _).codec.width = n := Nat.mul_one n
  rw [intoArray, transmuteLayout_eq_decode _ _ (by rw [hwidth]; simp), encode_elem_arr]
  have hencode : (TypeRepr.elem.array n).codec.encode arr = arr.toList.map some := by
    rw [List.map_eq_flatMap]
    rfl
  constructor
  · intro h
    have hcells := (TypeRepr.elem.array n).codec.encode_of_decode h
    rw [hencode] at hcells
    exact List.map_injective_iff.mpr (Option.some_injective X) hcells
  · intro h
    rw [← h, ← hencode, (TypeRepr.elem.array n).codec.decode_encode]

theorem intoArray_eq {n : Nat} (a : Array X (.len n)) : a.intoArray = some a.storage :=
  intoArray_eq_some.mpr rfl

end Array

end ConstArray
