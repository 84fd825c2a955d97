import ConstArray.Array.Regroup
import ConstArray.Foundation.Lexicographic

/-! # Comparing and hashing arrays

`PartialEq`, `PartialOrd`, `Ord` and `Hash` of an array are those of its slice, where
the elements bring their own, which may have effects and panic. A slice is the list of
its elements here. An array is compared the way its size is built, and is a key as good
as its elements.
-/

namespace ConstArray

open Foundation

variable {σ X Y R : Type} {A B S : ConcreteSize}

/-! ## Slices -/

/-- `<[T] as PartialEq<[U]>>::eq`. -/
def sliceEq (eq : X → Y → Exec σ Bool) (xs : List X) (ys : List Y) : Exec σ Bool :=
  if xs.length = ys.length then compareEach true eq xs ys else return false

/-- `<[T] as PartialOrd>::partial_cmp`. -/
def slicePartialCmp (partialCmp : X → X → Exec σ (Option Ordering)) (xs ys : List X) :
    Exec σ (Option Ordering) :=
  orLeave (some .eq) (compareEach (some .eq) partialCmp xs ys)
    (return some (compare xs.length ys.length))

/-- `<[T] as Ord>::cmp`. -/
def sliceCmp (cmp : X → X → Exec σ Ordering) (xs ys : List X) : Exec σ Ordering :=
  orLeave .eq (compareEach .eq cmp xs ys) (return compare xs.length ys.length)

/-- The trait `Hasher`. -/
structure Hasher (σ : Type) where
  State : Type
  write : State → List UInt8 → Exec σ State
  writeLengthPrefix : State → Nat → Exec σ State

/-- What a type needs to be a key of a map: the traits `PartialEq`, `PartialOrd`, `Ord`
and `Hash`. -/
structure Key (H : Hasher σ) (X : Type) where
  eq : X → X → Exec σ Bool
  partialCmp : X → X → Exec σ (Option Ordering)
  cmp : X → X → Exec σ Ordering
  hash : X → H.State → Exec σ H.State
  hashSlice : List X → H.State → Exec σ H.State

variable {H : Hasher σ}

/-- `<[T] as Hash>::hash`. -/
def sliceHash (k : Key H X) (data : List X) (state : H.State) : Exec σ H.State := do
  let state ← H.writeLengthPrefix state data.length
  k.hashSlice data state

/-- The default of `Hash::hash_slice`. -/
def hashEach (hash : X → H.State → Exec σ H.State) (data : List X) (state : H.State) :
    Exec σ H.State :=
  data.foldlM (fun state piece => hash piece state) state

/-- `PartialEq`, `PartialOrd`, `Ord` and `Hash` for `u8`, with the default of
`Hasher::write_u8`. -/
def Key.u8 (H : Hasher σ) : Key H UInt8 where
  eq x y := pure (x == y)
  partialCmp x y := pure (some (compare x y))
  cmp x y := pure (compare x y)
  hash x state := H.write state [x]
  hashSlice data state := H.write state data

/-- `PartialEq`, `PartialOrd`, `Ord` and `Hash` for `[T]`. -/
def Key.slice (k : Key H X) : Key H (List X) where
  eq := sliceEq k.eq
  partialCmp := slicePartialCmp k.partialCmp
  cmp := sliceCmp k.cmp
  hash := sliceHash k
  hashSlice := hashEach (sliceHash k)

/-! ## Arrays -/

namespace Array

/-- `Array::eq`. -/
def eq (eqElem : X → Y → Exec σ Bool) (a : Array X S) (other : Array Y S) : Exec σ Bool :=
  sliceEq eqElem a.flat other.flat

/-- `Array::partial_cmp`. -/
def partialCmp (partialCmpElem : X → X → Exec σ (Option Ordering)) (a other : Array X S) :
    Exec σ (Option Ordering) :=
  slicePartialCmp partialCmpElem a.flat other.flat

/-- `Array::cmp`. -/
def cmp (cmpElem : X → X → Exec σ Ordering) (a other : Array X S) : Exec σ Ordering :=
  sliceCmp cmpElem a.flat other.flat

/-- `Array::hash`. -/
def hash (k : Key H X) (a : Array X S) (state : H.State) : Exec σ H.State :=
  sliceHash k a.flat state

/-- `PartialEq`, `PartialOrd`, `Ord` and `Hash` for `Array<T, S>`. -/
def asKey (k : Key H X) (S : ConcreteSize) : Key H (Array X S) where
  eq := eq k.eq
  partialCmp := partialCmp k.partialCmp
  cmp := cmp k.cmp
  hash := hash k
  hashSlice := hashEach (hash k)

theorem length_flat_eq (a : Array X S) (b : Array Y S) : a.flat.length = b.flat.length :=
  a.length_flat.trans b.length_flat.symm

/-- Arrays of one size are never told apart by their lengths. -/
theorem eq_eq (eqElem : X → Y → Exec σ Bool) (a : Array X S) (b : Array Y S) :
    eq eqElem a b = compareEach true eqElem a.flat b.flat :=
  if_pos (length_flat_eq a b)

theorem partialCmp_eq (partialCmpElem : X → X → Exec σ (Option Ordering)) (a b : Array X S) :
    partialCmp partialCmpElem a b = compareEach (some .eq) partialCmpElem a.flat b.flat := by
  rw [partialCmp, slicePartialCmp, length_flat_eq a b, Nat.compare_eq_eq.mpr rfl]
  exact go_orLeave _

theorem cmp_eq (cmpElem : X → X → Exec σ Ordering) (a b : Array X S) :
    cmp cmpElem a b = compareEach .eq cmpElem a.flat b.flat := by
  rw [cmp, sliceCmp, length_flat_eq a b, Nat.compare_eq_eq.mpr rfl]
  exact go_orLeave _

/-! ## Comparison by structure -/

end Array

/-! ## Contracts -/

namespace Key

/-- The contract of `Eq` and `Hash`: equality is an equivalence relation, and what is
equal hashes alike. -/
structure LawfulHash (k : Key H X) (equal : X → X → Prop) : Prop where
  equivalence : Equivalence equal
  eq_eq : ∀ x y, ∃ b, k.eq x y = pure b ∧ (b = true ↔ equal x y)
  hash_eq : ∀ x y, equal x y → k.hash x = k.hash y

/-- The contract of an overridden `hash_slice`: slices with equal elements hash alike. -/
def HashesSlices (k : Key H X) (equal : X → X → Prop) : Prop :=
  ∀ xs ys, List.Forall₂ equal xs ys → k.hashSlice xs = k.hashSlice ys

/-- The contract of `Ord`: all comparisons are those of one total order. -/
structure LawfulOrd (k : Key H X) (compare : X → X → Ordering) : Prop where
  order : Std.TransCmp compare
  eq_eq : ∀ x y, k.eq x y = pure (compare x y == .eq)
  partialCmp_eq : ∀ x y, k.partialCmp x y = pure (some (compare x y))
  cmp_eq : ∀ x y, k.cmp x y = pure (compare x y)

theorem forall₂_equivalence {equal : X → X → Prop} (h : Equivalence equal) :
    Equivalence (List.Forall₂ equal) where
  refl xs := List.forall₂_same.mpr fun x _ => h.refl x
  symm hxy := List.Forall₂.flip (hxy.imp fun _ _ => h.symm)
  trans := by
    intro xs ys zs hxy hyz
    induction hxy generalizing zs with
    | nil => exact hyz
    | cons hx _ ih =>
        cases hyz with
        | cons hy hrest => exact .cons (h.trans hx hy) (ih hrest)

theorem hashEach_congr {equal : X → X → Prop} {hash : X → H.State → Exec σ H.State}
    (h : ∀ x y, equal x y → hash x = hash y) {xs ys : List X}
    (hequal : List.Forall₂ equal xs ys) : hashEach hash xs = hashEach hash ys := by
  funext state
  unfold hashEach
  induction hequal generalizing state with
  | nil => rfl
  | cons hx _ ih =>
      rw [List.foldlM_cons, List.foldlM_cons, h _ _ hx]
      exact bind_congr ih

variable {k : Key H X}

/-- The default of `hash_slice` keeps the contract of those that override it. -/
theorem LawfulHash.hashesSlices {equal : X → X → Prop} (h : k.LawfulHash equal)
    (hdefault : k.hashSlice = hashEach k.hash) : k.HashesSlices equal := by
  intro xs ys hxys
  rw [hdefault, hashEach_congr h.hash_eq hxys]

/-- Slices are equal if they have the same length and their elements are equal. -/
theorem LawfulHash.slice {equal : X → X → Prop} (h : k.LawfulHash equal)
    (hslices : k.HashesSlices equal) : k.slice.LawfulHash (List.Forall₂ equal) where
  equivalence := forall₂_equivalence h.equivalence
  eq_eq xs ys := by
    by_cases hlength : xs.length = ys.length
    · obtain ⟨b, heq, hb⟩ := compareEach_relation h.eq_eq hlength
      exact ⟨b, (if_pos hlength).trans heq, hb⟩
    · exact ⟨false, if_neg hlength, by simpa using mt List.Forall₂.length_eq hlength⟩
  hash_eq xs ys hxys := by
    funext state
    change sliceHash k xs state = sliceHash k ys state
    rw [sliceHash, sliceHash, hxys.length_eq, hslices xs ys hxys]

/-- An array keeps the contract that its slice keeps. -/
theorem LawfulHash.array {equal : X → X → Prop} (h : k.slice.LawfulHash (List.Forall₂ equal))
    (S : ConcreteSize) :
    (Array.asKey k S).LawfulHash fun a b => List.Forall₂ equal a.flat b.flat where
  equivalence := h.equivalence.comap Array.flat
  eq_eq a b := h.eq_eq a.flat b.flat
  hash_eq a b := h.hash_eq a.flat b.flat

/-- Slices are ordered lexicographically. -/
theorem LawfulOrd.slice {compare : X → X → Ordering} (h : k.LawfulOrd compare) :
    k.slice.LawfulOrd (List.compareLex compare) where
  order := by
    have := h.order
    infer_instance
  eq_eq xs ys := by
    change sliceEq k.eq xs ys = _
    unfold sliceEq
    split
    next hlength =>
      have hencode : ∀ o : Ordering, (o == .eq) = (Ordering.eq == .eq) → o = .eq := by decide
      have hordering := compareEach_ordering (· == .eq) hencode h.eq_eq xs ys
      rw [hlength, Nat.compare_eq_eq.mpr rfl] at hordering
      exact (go_orLeave _).symm.trans hordering
    next hlength =>
      rw [beq_eq_false_iff_ne.mpr (mt length_eq_of_compareLex hlength)]
  partialCmp_eq := compareEach_ordering some (fun _ => Option.some.inj) h.partialCmp_eq
  cmp_eq := compareEach_ordering id (fun _ => id) h.cmp_eq

theorem u8_lawfulHash (H : Hasher σ) : (u8 H).LawfulHash (· = ·) where
  equivalence := eq_equivalence
  eq_eq x y := ⟨x == y, rfl, beq_iff_eq⟩
  hash_eq x y h := by rw [h]

/-- `hash_slice` of `u8` writes all bytes at once. -/
theorem u8_hashesSlices (H : Hasher σ) : (u8 H).HashesSlices (· = ·) := by
  intro xs ys h
  rw [List.forall₂_eq_eq_eq] at h
  rw [h]

theorem u8_lawfulOrd (H : Hasher σ) : (u8 H).LawfulOrd compare where
  order := inferInstance
  eq_eq x y := by
    have hcompare : (x == y) = (compare x y == .eq) := by
      rw [Bool.eq_iff_iff, beq_iff_eq, beq_iff_eq, Std.LawfulEqCmp.compare_eq_iff_eq]
    exact congrArg pure hcompare
  partialCmp_eq x y := rfl
  cmp_eq x y := rfl

end Key

namespace Array

/-- A slice can stand for an array as a key of a map, as `Borrow` requires: they compare
and hash alike, and arrays and slices of every length keep the contracts that the
elements keep. Elements, slices and arrays with the default `hash_slice` need no contract for it:
what `Hash` says of one element is enough. -/
theorem borrows_as_key (k : Key H X) :
    (∀ (S : ConcreteSize) (a b : Array X S),
      (asKey k S).eq a b = k.slice.eq a.flat b.flat ∧
      (asKey k S).partialCmp a b = k.slice.partialCmp a.flat b.flat ∧
      (asKey k S).cmp a b = k.slice.cmp a.flat b.flat ∧
      (asKey k S).hash a = k.slice.hash a.flat) ∧
    (∀ equal, k.LawfulHash equal → k.hashSlice = hashEach k.hash →
      k.slice.LawfulHash (List.Forall₂ equal) ∧
      ∀ S, (asKey k S).LawfulHash fun a b => List.Forall₂ equal a.flat b.flat) ∧
    (∀ equal, k.LawfulHash equal → k.HashesSlices equal →
      k.slice.LawfulHash (List.Forall₂ equal) ∧
      ∀ S, (asKey k S).LawfulHash fun a b => List.Forall₂ equal a.flat b.flat) ∧
    (k.slice.hashSlice = hashEach k.slice.hash ∧
      ∀ S, (asKey k S).hashSlice = hashEach (asKey k S).hash) ∧
    ∀ compare, k.LawfulOrd compare → k.slice.LawfulOrd (List.compareLex compare) ∧
      ∀ S, (asKey k S).LawfulOrd fun a b => List.compareLex compare a.flat b.flat := by
  refine ⟨fun S a b => ⟨rfl, rfl, rfl, rfl⟩, ?_, ?_, ⟨rfl, fun S => rfl⟩, ?_⟩
  · intro equal h hdefault
    have hslice := h.slice (h.hashesSlices hdefault)
    exact ⟨hslice, hslice.array⟩
  · intro equal h hslices
    have hslice := h.slice hslices
    exact ⟨hslice, hslice.array⟩
  · intro compare h
    have := h.order
    refine ⟨h.slice, fun S => ?_⟩
    exact {
      order := {
        eq_swap := Std.OrientedCmp.eq_swap
        isLE_trans := Std.TransCmp.isLE_trans }
      eq_eq := fun a b => h.slice.eq_eq a.flat b.flat
      partialCmp_eq := fun a b => h.slice.partialCmp_eq a.flat b.flat
      cmp_eq := fun a b => h.slice.cmp_eq a.flat b.flat }

/-- A hasher that keeps the bytes it is fed. -/
def bytesHasher : Hasher Unit where
  State := List UInt8
  write state bytes := pure (state ++ bytes)
  writeLengthPrefix state len := pure (state ++ [.ofNat len])

/-- Arrays of bytes, which override `hash_slice`, and arrays of these, which do not. -/
theorem borrows_as_key_bytes :
    (asKey (.u8 bytesHasher) (.sum (.len 2) (.prod (.len 2) (.len 3)))).LawfulHash
      (fun a b => List.Forall₂ (· = ·) a.flat b.flat) ∧
    (asKey (asKey (.u8 bytesHasher) (.len 2)) (.len 3)).LawfulHash
      (fun a b => List.Forall₂ (fun c d => List.Forall₂ (· = ·) c.flat d.flat) a.flat b.flat) ∧
    (asKey (.u8 bytesHasher) (.sum (.len 2) (.prod (.len 2) (.len 3)))).LawfulOrd
      fun a b => List.compareLex compare a.flat b.flat := by
  obtain ⟨-, -, hbytes, ⟨-, hdefault⟩, hord⟩ := borrows_as_key (.u8 bytesHasher)
  obtain ⟨-, hchunks, -⟩ := borrows_as_key (asKey (.u8 bytesHasher) (.len 2))
  have hlawful := (hbytes _ (Key.u8_lawfulHash _) (Key.u8_hashesSlices _)).2
  exact ⟨hlawful _, (hchunks _ (hlawful (.len 2)) (hdefault _)).2 _,
    (hord _ (Key.u8_lawfulOrd _)).2 _⟩

end Array

end ConstArray
