import ConstArray.Array.Consume
import ConstArray.View.Owned

/-! # Arrays of plain data

For elements that are copied freely and have no destructor, the builders return
what a pure function says, and the conversions between sizes are total. The
functions here name those values; a theorem about each says that the operation
of the crate returns it.
-/

namespace ConstArray

open Foundation

variable {σ X Y Z : Type} {A B P S : ConcreteSize}

namespace Array

theorem flat_injective : Function.Injective (flat : Array X S → List X) := by
  intro a b h
  rw [← Option.some.injEq, ← ofFlat_flat a, h, ofFlat_flat]

/-- Arrays are the same if their flat sequences are. -/
@[ext] theorem ext_flat {a b : Array X S} (h : a.flat = b.flat) : a = b := flat_injective h

/-- Arrays of the same size are compared within their bounds. -/
theorem ext_getElem? {a b : Array X S} (h : ∀ i < S.count, a.flat[i]? = b.flat[i]?) : a = b := by
  apply ext_flat
  apply List.ext_getElem?
  intro i
  by_cases hi : i < S.count
  · exact h i hi
  · rw [List.getElem?_eq_none (by simpa using hi), List.getElem?_eq_none (by simpa using hi)]

theorem isSome_ofFlat {l : List X} (h : l.length = S.count) : (ofFlat S l).isSome := by
  obtain ⟨a, ha, -⟩ := exists_ofFlat h
  rw [ha, Option.isSome_some]

/-- The array with the given elements. -/
def ofList (S : ConcreteSize) (l : List X) (h : l.length = S.count) : Array X S :=
  (ofFlat S l).get (isSome_ofFlat h)

theorem ofFlat_eq_ofList {l : List X} (h : l.length = S.count) :
    ofFlat S l = some (ofList S l h) :=
  (Option.some_get _).symm

@[simp] theorem flat_ofList {l : List X} (h : l.length = S.count) : (ofList S l h).flat = l :=
  ofFlat_eq_some.mp (ofFlat_eq_ofList h)

/-! ## Slices of a fixed length

`&mut [T]` cannot change its length: a function that takes one is a function
between vectors. -/

/-- The elements as a slice, through `DerefMut`. -/
def toVector (a : Array X S) : List.Vector X S.count := ⟨a.flat, a.length_flat⟩

/-- What the array holds after its slice has been written. -/
def ofVector (v : List.Vector X S.count) : Array X S := ofList S v.toList v.toList_length

@[simp] theorem toList_toVector (a : Array X S) : a.toVector.toList = a.flat := rfl

@[simp] theorem flat_ofVector (v : List.Vector X S.count) :
    (ofVector v : Array X S).flat = v.toList :=
  flat_ofList v.toList_length

@[simp] theorem ofVector_toVector (a : Array X S) : ofVector a.toVector = a := by
  ext1
  simp

@[simp] theorem toVector_ofVector (v : List.Vector X S.count) :
    (ofVector v : Array X S).toVector = v :=
  Subtype.ext (flat_ofVector v)

/-! ## Builders -/

/-- The array whose element `i` is `f i`. -/
def tabulate (S : ConcreteSize) (f : Nat → X) : Array X S :=
  ofList S ((List.range S.count).map f) (by simp)

@[simp] theorem flat_tabulate (f : Nat → X) :
    (tabulate S f).flat = (List.range S.count).map f :=
  flat_ofList _

/-- An array is the table of its elements. -/
theorem getElem?_tabulate (f : Nat → X) {i : Nat} (hi : i < S.count) :
    (tabulate S f).flat[i]? = some (f i) := by
  rw [flat_tabulate, List.getElem?_map, List.getElem?_range hi, Option.map_some]

theorem tabulate_getD (a : Array X S) (d : X) :
    tabulate S (fun i => a.flat[i]?.getD d) = a := by
  ext1
  apply List.ext_getElem
  · simp
  · intro i hi hi'
    simp [List.getElem?_eq_getElem hi']

/-- `Array::from_fn` of a function that only computes. -/
theorem fromFn_pure (drop : X → Dtor σ) {f : Nat → Exec σ X} {g : Nat → X}
    (h : ∀ i < S.count, f i = pure (g i)) : fromFn drop S f = pure (tabulate S g) := by
  have hcalls : (List.range S.count).map f = ((List.range S.count).map g).map pure := by
    rw [List.map_map]
    apply List.map_congr_left
    intro i hi
    exact h i (List.mem_range.mp hi)
  rw [fromFn_eq, hcalls, Exec.traverse_pure, pure_bind, List.nil_append,
    ofFlat_eq_ofList (by simp), Exec.ofOption_some]
  rfl

theorem slice_noop (xs : List X) :
    Dtor.slice (fun _ => Dtor.noop) xs = (Dtor.noop : Dtor σ) := by
  induction xs with
  | nil => rfl
  | cons x xs ih => rw [Dtor.slice_cons, ih, Dtor.andThen_noop]

/-- `Array::default`, where the default of an element is a value. -/
theorem default_pure (drop : X → Dtor σ) (S : ConcreteSize) (x : X) :
    default drop S (pure x) = (pure (tabulate S fun _ => x) : Exec σ _) :=
  fromFn_pure drop fun _ _ => rfl

/-- With nothing to drop, a panicking call ends a traversal. -/
theorem traverse_panic (xs done : List X) (cs : List (Exec σ X)) :
    Exec.traverse (fun _ => Dtor.noop) (xs.map pure ++ Exec.panic :: cs) done = Exec.panic := by
  induction xs generalizing done with
  | nil =>
      rw [List.map_nil, List.nil_append, Exec.traverse, slice_noop]
      rfl
  | cons x xs ih =>
      rw [List.map_cons, List.cons_append, Exec.traverse, Exec.onUnwind_pure, pure_bind, ih]

/-- `Array::from_fn` stops at the first call that panics. -/
theorem fromFn_panic {f : Nat → Exec σ X} {g : Nat → X} {k : Nat} (hk : k < S.count)
    (hbefore : ∀ i < k, f i = pure (g i)) (hpanic : f k = Exec.panic) :
    fromFn (fun _ => Dtor.noop) S f = Exec.panic := by
  have hcalls : (List.range S.count).map f = ((List.range k).map g).map pure ++
      Exec.panic :: ((List.range (S.count - k - 1)).map fun i => f (k + 1 + i)) := by
    obtain ⟨n, hn⟩ := Nat.exists_eq_add_of_lt hk
    have hfirst : (List.range k).map f = ((List.range k).map g).map pure := by
      rw [List.map_map]
      exact List.map_congr_left fun i hi => hbefore i (List.mem_range.mp hi)
    rw [show S.count - k - 1 = n by omega, hn, Nat.add_assoc, List.range_add, List.map_append,
      hfirst, List.range_succ_eq_map, List.map_cons, List.map_cons, Nat.add_zero, hpanic]
    simp only [List.map_map, Function.comp_def, Nat.succ_eq_add_one, Nat.add_assoc,
      Nat.add_comm 1]
  rw [fromFn_eq, hcalls, traverse_panic]
  rfl

/-- The same calls at every element. -/
def mapValues (f : X → Y) (a : Array X S) : Array Y S := ofList S (a.flat.map f) (by simp)

@[simp] theorem flat_mapValues (f : X → Y) (a : Array X S) :
    (a.mapValues f).flat = a.flat.map f :=
  flat_ofList _

theorem mapRef_pure (drop : Y → Dtor σ) {f : X → Exec σ Y} {g : X → Y} (a : Array X S)
    (h : ∀ x ∈ a.flat, f x = pure (g x)) : a.mapRef drop f = pure (a.mapValues g) := by
  have hcalls : a.flat.map f = (a.flat.map g).map pure := by
    rw [List.map_map]
    exact List.map_congr_left h
  rw [mapRef_eq, hcalls, Exec.traverse_pure, pure_bind, List.nil_append,
    ofFlat_eq_ofList (by simp), Exec.ofOption_some]
  rfl

/-- Two arrays of the same size, element by element. -/
def zipValues (f : X → Y → Z) (a : Array X S) (b : Array Y S) : Array Z S :=
  ofList S (List.zipWith f a.flat b.flat) (by simp)

@[simp] theorem flat_zipValues (f : X → Y → Z) (a : Array X S) (b : Array Y S) :
    (a.zipValues f b).flat = List.zipWith f a.flat b.flat :=
  flat_ofList _

theorem zipWith_pure (drop : Z → Dtor σ) {f : X → Y → Exec σ Z} {g : X → Y → Z}
    (h : ∀ x y, f x y = pure (g x y)) (a : Array X S) (b : Array Y S) :
    a.zipWith drop f b = pure (a.zipValues g b) := by
  obtain rfl : f = fun x y => pure (g x y) := funext fun x => funext fun y => h x y
  have hcalls : List.zipWith (fun x y => (pure (g x y) : Exec σ Z)) a.flat b.flat =
      (List.zipWith g a.flat b.flat).map pure := (List.map_zipWith ..).symm
  rw [zipWith_eq, hcalls, Exec.traverse_pure, pure_bind, List.nil_append,
    ofFlat_eq_ofList (by simp), Exec.ofOption_some]
  rfl

/-- `Array::clone`, where the elements are copied. -/
theorem clone_pure (drop : X → Dtor σ) (a : Array X S) :
    a.clone drop pure = (pure a : Exec σ _) := by
  rw [clone_eq, Exec.traverse_pure, pure_bind, List.nil_append, ofFlat_flat, Exec.ofOption_some]

/-! ## Joining and splitting -/

/-- Both arrays, one after the other. -/
def append (a : Array X A) (b : Array X B) : Array X (.sum A B) :=
  ofList _ (a.flat ++ b.flat) (by simp)

@[simp] theorem flat_append (a : Array X A) (b : Array X B) :
    (a.append b).flat = a.flat ++ b.flat :=
  flat_ofList _

theorem concat_eq_append (a : Array X A) (b : Array X B) : a.concat b = some (a.append b) := by
  rw [concat_eq, ofFlat_eq_ofList (by simp)]
  rfl

/-- The first part. -/
def left (a : Array X (.sum A B)) : Array X A :=
  ofList A (a.flat.take A.count) (by simp)

/-- The second part. -/
def right (a : Array X (.sum A B)) : Array X B :=
  ofList B (a.flat.drop A.count) (by simp)

@[simp] theorem flat_left (a : Array X (.sum A B)) : a.left.flat = a.flat.take A.count :=
  flat_ofList _

@[simp] theorem flat_right (a : Array X (.sum A B)) : a.right.flat = a.flat.drop A.count :=
  flat_ofList _

theorem parts_eq_halves (a : Array X (.sum A B)) : a.parts = some (a.left, a.right) :=
  parts_eq_some.mpr (by simp)

@[simp] theorem left_append (a : Array X A) (b : Array X B) : (a.append b).left = a := by
  ext1
  simp [List.take_left' a.length_flat]

@[simp] theorem right_append (a : Array X A) (b : Array X B) : (a.append b).right = b := by
  ext1
  simp [List.drop_left' a.length_flat]

@[simp] theorem append_left_right (a : Array X (.sum A B)) : a.left.append a.right = a := by
  ext1
  simp

/-- The chunks in a row. -/
def join (c : Array (Array X B) A) : Array X (.prod A B) :=
  ofList _ (c.flat.flatMap flat) (length_flatMap_flat c)

@[simp] theorem flat_join (c : Array (Array X B) A) : c.join.flat = c.flat.flatMap flat :=
  flat_ofList _

theorem fromChunks_eq_join (c : Array (Array X B) A) : c.fromChunks = some c.join :=
  fromChunks_eq_some.mpr (flat_join c)

theorem isSome_intoChunks (a : Array X (.prod A B)) : a.intoChunks.isSome := by
  obtain ⟨c, hc, -⟩ := exists_intoChunks a
  rw [hc, Option.isSome_some]

/-- The array cut into chunks. -/
def chunks (a : Array X (.prod A B)) : Array (Array X B) A :=
  a.intoChunks.get a.isSome_intoChunks

theorem intoChunks_eq_chunks (a : Array X (.prod A B)) : a.intoChunks = some a.chunks :=
  (Option.some_get _).symm

@[simp] theorem flatMap_chunks (a : Array X (.prod A B)) :
    a.chunks.flat.flatMap flat = a.flat :=
  intoChunks_eq_some.mp a.intoChunks_eq_chunks

@[simp] theorem join_chunks (a : Array X (.prod A B)) : a.chunks.join = a := by
  ext1
  simp

@[simp] theorem chunks_join (c : Array (Array X B) A) : c.join.chunks = c := by
  have hcut := intoChunks_eq_some.mpr (flat_join c).symm
  rw [intoChunks_eq_chunks, Option.some.injEq] at hcut
  exact hcut

/-! ## Changing the size -/

/-- The same elements at a size of the same length. -/
def resize (a : Array X A) (h : A.count = B.count) : Array X B := ofList B a.flat (by simp [h])

@[simp] theorem flat_resize (a : Array X A) (h : A.count = B.count) :
    (a.resize h).flat = a.flat :=
  flat_ofList _

theorem cast_eq_resize (p : SameLen A B) (h : A.count = B.count) (a : Array X A) :
    a.cast p = some (a.resize h) := by
  rw [cast_eq p h, ofFlat_eq_ofList (by simp [h])]
  rfl

/-- The elements followed by copies of `fill`. -/
def padded (a : Array X P) (h : P.count ≤ S.count) (fill : X) : Array X S :=
  ofList S (a.flat ++ .replicate (S.count - P.count) fill) (by simp [h])

@[simp] theorem flat_padded (a : Array X P) (h : P.count ≤ S.count) (fill : X) :
    (a.padded h fill : Array X S).flat = a.flat ++ .replicate (S.count - P.count) fill :=
  flat_ofList _

theorem padFrom_pure (p : AtMost P S) (h : P.count ≤ S.count) (a : Array X P) (fill : X) :
    padFrom (fun _ => Dtor.noop) pure a p fill = (pure (a.padded h fill) : Exec σ _) := by
  have hcalls : List.replicate (S.count - P.count) (pure fill : Exec σ X) =
      (List.replicate (S.count - P.count) fill).map pure := List.map_replicate.symm
  rw [padFrom_eq _ _ p h, hcalls, Exec.traverse_pure, pure_bind, ofFlat_eq_ofList (by simp [h]),
    Exec.ofOption_some]
  rfl

/-- The first elements. -/
def initial (a : Array X S) (h : P.count ≤ S.count) : Array X P :=
  ofList P (a.flat.take P.count) (by simp [h])

@[simp] theorem flat_initial (a : Array X S) (h : P.count ≤ S.count) :
    (a.initial h : Array X P).flat = a.flat.take P.count :=
  flat_ofList _

theorem truncate_pure (p : AtMost P S) (h : P.count ≤ S.count) (a : Array X S) :
    a.truncate (fun _ => Dtor.noop) p = (pure (a.initial h) : Exec σ _) := by
  obtain ⟨b, hb, htruncate⟩ := truncate_eq (fun _ => (Dtor.noop : Dtor σ)) p h a
  obtain rfl : b = a.initial h := by
    ext1
    rw [hb, flat_initial]
  rw [htruncate, slice_noop, slice_noop]
  rfl

end Array

end ConstArray
