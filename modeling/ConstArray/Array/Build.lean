import ConstArray.Array.Truncate
import ConstArray.Foundation.Traverse
import ConstArray.View.Slice

/-! # Building arrays in place

`try_build` writes the elements through a raw pointer into uninitialized storage
and guards those written so far; it never looks at the structure of the size.
Every operation that builds an array is a guarded traversal of the calls for its
indices, whose results are the flat sequence of the array.
-/

namespace ConstArray

open Foundation

variable {σ E X Y Z : Type} {t : Ty} {S : ConcreteSize}

/-! ## `try_build` -/

/-- The guard of `try_build`, over the cells of the array under construction. -/
structure Guard (X : Type) where
  mem : Mem X
  init : Nat

/-- `Guard::drop`: the first `init` elements. -/
def Guard.drop (drop : X → Dtor σ) (g : Guard X) : Exec σ Unit := dropInPlace drop g.mem 0 g.init

/-- The loop `for i in 0..A::LEN` of `try_build`. -/
def buildLoop (drop : X → Dtor σ) (dropErr : E → Dtor σ) (f : Nat → Exec σ (Except E X)) :
    (remaining i : Nat) → Guard X → Exec σ (Except E (Guard X))
  | 0, _, guard => pure (.ok guard)
  | n + 1, i, guard => do
      match ← (f i).onUnwind (guard.drop drop) with
      -- the count is raised after the write, so the guard never owns an unwritten slot
      | .ok x => buildLoop drop dropErr f n (i + 1) { mem := guard.mem.write i x, init := i + 1 }
      -- returning drops the guard while the error is live
      | .error e =>
          (guard.drop drop).onUnwind (dropErr e).run
          return .error e

/-- `try_build`. Once the guard is forgotten, all cells are read back as one
`S::ArrayType<X>`. -/
def tryBuild (drop : X → Dtor σ) (dropErr : E → Dtor σ) (S : ConcreteSize)
    (f : Nat → Exec σ (Except E X)) : Exec σ (Except E (S.ArrayType X)) := do
  match ← buildLoop drop dropErr f S.count 0 { mem := .uninit, init := 0 } with
  | .ok guard => return .ok (← Exec.ofOption ((S.repr .elem).load guard.mem 0))
  | .error e => return .error e

/-- `build`. -/
def build (drop : X → Dtor σ) (S : ConcreteSize) (f : Nat → Exec σ X) :
    Exec σ (S.ArrayType X) := do
  match ← tryBuild drop Empty.elim S fun i => Exec.infallible (f i) with
  | .ok array => return array
  | .error never => nomatch never

/-- The guard owns exactly the elements in `done`. -/
structure Guard.Holds (g : Guard X) (done : List X) : Prop where
  init_eq : g.init = done.length
  slice_eq : g.mem.slice 0 done.length = done.map some

theorem Guard.Holds.start : Guard.Holds { mem := .uninit, init := 0 } ([] : List X) := ⟨rfl, rfl⟩

theorem Guard.Holds.drop_eq {g : Guard X} {done : List X} (h : g.Holds done)
    (drop : X → Dtor σ) : g.drop drop = (Dtor.slice drop done).run :=
  dropInPlace_eq drop (h.init_eq ▸ h.slice_eq)

/-- The slot after those that are initialized is written. -/
theorem Guard.Holds.write {g : Guard X} {done : List X} (h : g.Holds done) (x : X) :
    Guard.Holds { mem := g.mem.write done.length x, init := done.length + 1 } (done ++ [x]) where
  init_eq := by simp
  slice_eq := by
    have hkeep : (g.mem.write done.length x).slice 0 done.length = g.mem.slice 0 done.length := by
      apply List.map_congr_left
      intro i hi
      have hne : i ≠ done.length := Nat.ne_of_lt (List.mem_range.mp hi)
      simp [Mem.write, hne]
    rw [List.length_append, List.length_singleton, Mem.slice, List.range_succ, List.map_append,
      ← Mem.slice, hkeep, h.slice_eq, List.map_append]
    simp [Mem.write]

theorem Guard.Holds.load {g : Guard X} {done : List X} (h : g.Holds done)
    (hlength : done.length = S.count) : Array.load S g.mem 0 = Array.ofFlat S done := by
  apply Option.ext
  intro a
  rw [Array.load_eq_some, Array.ofFlat_eq_some, ← hlength, h.slice_eq]
  exact ⟨fun heq => (List.map_injective_iff.mpr (Option.some_injective X) heq).symm,
    fun heq => by rw [heq]⟩

/-- Read back what a traversal collected. -/
def collect (S : ConcreteSize) : Except E (List X) → Exec σ (Except E (Array X S))
  | .ok xs => Except.ok <$> Exec.ofOption (Array.ofFlat S xs)
  | .error e => pure (.error e)

/-- Read back what the guard of a finished loop leaves. -/
def assumeInit (S : ConcreteSize) : Except E (Guard X) → Exec σ (Except E (Array X S))
  | .ok guard => Except.ok <$> Exec.ofOption (Array.load S guard.mem 0)
  | .error e => pure (.error e)

/-- The loop keeps the guard's count equal to the slots written. -/
theorem buildLoop_assumeInit (drop : X → Dtor σ) (dropErr : E → Dtor σ)
    (f : Nat → Exec σ (Except E X)) (n : Nat) {g : Guard X} {done : List X} (hg : g.Holds done)
    (hlength : done.length + n = S.count) :
    (buildLoop drop dropErr f n done.length g >>= assumeInit S) =
      (Exec.tryTraverse drop dropErr ((List.range' done.length n).map f) done >>= collect S) := by
  -- the guard of the loop and what the traversal has collected move in lockstep
  induction n generalizing g done with
  | zero =>
      rw [buildLoop, List.range'_zero, List.map_nil, Exec.tryTraverse, pure_bind, pure_bind,
        assumeInit, collect, hg.load hlength]
  | succ n ih =>
      rw [buildLoop, List.range'_succ, List.map_cons, Exec.tryTraverse, hg.drop_eq, bind_assoc,
        bind_assoc]
      refine congrArg _ ?_
      funext r
      cases r with
      | error e => simp only [bind_assoc, pure_bind, assumeInit, collect]
      | ok x =>
          have hnext := ih (hg.write x) (by simp; omega)
          rwa [List.length_append, List.length_singleton] at hnext

namespace Array

/-! ## The operations -/

/-- `Array::try_from_fn`. -/
def tryFromFn (drop : X → Dtor σ) (dropErr : E → Dtor σ) (S : ConcreteSize)
    (f : Nat → Exec σ (Except E X)) : Exec σ (Except E (Array X S)) :=
  Except.map mk <$> tryBuild drop dropErr S f

/-- `Array::from_fn`. -/
def fromFn (drop : X → Dtor σ) (S : ConcreteSize) (f : Nat → Exec σ X) : Exec σ (Array X S) :=
  mk <$> build drop S f

/-- `Array::default`. -/
def default (drop : X → Dtor σ) (S : ConcreteSize) (defaultElem : Exec σ X) :
    Exec σ (Array X S) :=
  fromFn drop S fun _ => defaultElem

/-- `self[i]`, through `Deref`. -/
def index (a : Array X S) (i : Nat) : Exec σ X := do
  let r ← (asSlice (⟨0⟩ : Ref .shared (.arr S .elem))).index i
  Exec.ofOption (a.toMem r.addr)

/-- `Array::map_ref`. -/
def mapRef (drop : Y → Dtor σ) (f : X → Exec σ Y) (a : Array X S) : Exec σ (Array Y S) :=
  fromFn drop S fun i => do f (← a.index i)

/-- `Array::zip_with`. -/
def zipWith (drop : Z → Dtor σ) (f : X → Y → Exec σ Z) (a : Array X S) (b : Array Y S) :
    Exec σ (Array Z S) :=
  fromFn drop S fun i => do f (← a.index i) (← b.index i)

/-- `Array::each_ref`, of an array that is borrowed. -/
def eachRef (a : Ref .shared (.arr S t)) : Exec σ (Array (Ref .shared t) S) :=
  fromFn (fun _ => Dtor.noop) S fun i => (asSlice a).index i

/-- `Array::each_mut`: the base address is computed once. -/
def eachMut (a : Ref .exclusive (.arr S t)) : Exec σ (Array (Ref .exclusive t) S) :=
  let base := (asMutSlice a).addr
  fromFn (fun _ => Dtor.noop) S fun i => pure ⟨base + i * t.stride⟩

/-- The clone of `[T; N]` in the standard library: in order, dropping the clones
made so far if one panics. -/
def stdClone (drop : X → Dtor σ) (clone : X → Exec σ X) {n : Nat} (v : List.Vector X n) :
    Exec σ (List.Vector X n) := do
  let clones ← Exec.traverse drop (v.toList.map clone) []
  Exec.ofOption (storage <$> ofFlat (.len n) clones)

/-- The provided method `ArrayType::clone_array`. -/
def cloneFlat (drop : X → Dtor σ) (clone : X → Exec σ X) (S : ConcreteSize)
    (storage : S.ArrayType X) : Exec σ (S.ArrayType X) :=
  build drop S fun i => do clone (← index ⟨storage⟩ i)

/-- `ArrayType::clone_array`, which plain arrays override with the clone of the
standard library. -/
def cloneArray (drop : X → Dtor σ) (clone : X → Exec σ X) :
    (S : ConcreteSize) → S.ArrayType X → Exec σ (S.ArrayType X)
  | .param p, _ => p.elim
  | .len _, v => stdClone drop clone v
  | .sum a b, storage => cloneFlat drop clone (.sum a b) storage
  | .prod a b, storage => cloneFlat drop clone (.prod a b) storage

/-- `Array::clone`. -/
def clone (drop : X → Dtor σ) (cloneElem : X → Exec σ X) (a : Array X S) :
    Exec σ (Array X S) :=
  mk <$> cloneArray drop cloneElem S a.storage

/-- `TryFromSliceError`. -/
structure TryFromSliceError where
  deriving DecidableEq

/-- `TryFrom<&[T]>` for an owned array, from a slice of the memory `m`. -/
def tryFromSlice (w : Nat) (drop : X → Dtor σ) (cloneElem : X → Exec σ X) (S : ConcreteSize)
    (m : Mem X) (slice : Slice .shared .elem) :
    Exec σ (Except TryFromSliceError (Array X S)) :=
  match fromSlice w S slice with
  | some array => do
      let a ← Exec.ofOption (load S m array.addr)
      Except.ok <$> a.clone drop cloneElem
  | none => pure (.error ⟨⟩)

/-! ## What they build -/

theorem assumeInit_eq (r : Except E (Guard X)) :
    (assumeInit S r : Exec σ _) =
      Except.map mk <$> (match r with
        | .ok guard => do return .ok (← Exec.ofOption ((S.repr .elem).load guard.mem 0))
        | .error e => return .error e) := by
  cases r with
  | error e => rfl
  | ok guard =>
      have hload : load S guard.mem 0 = ((S.repr .elem).load guard.mem 0).map mk := rfl
      rw [assumeInit, hload]
      dsimp only
      cases (S.repr .elem).load guard.mem 0 <;> rfl

/-- `try_from_fn` collects the results of the calls for `0, 1, 2, …`. -/
theorem tryFromFn_eq (drop : X → Dtor σ) (dropErr : E → Dtor σ) (S : ConcreteSize)
    (f : Nat → Exec σ (Except E X)) :
    tryFromFn drop dropErr S f =
      (Exec.tryTraverse drop dropErr ((List.range S.count).map f) [] >>= collect S) := by
  have hloop := buildLoop_assumeInit drop dropErr f S.count Guard.Holds.start (Nat.zero_add _)
  rw [List.length_nil] at hloop
  rw [List.range_eq_range', ← hloop, tryFromFn, tryBuild, map_bind]
  exact congrArg _ (funext fun r => (assumeInit_eq r).symm)

theorem fromFn_eq_tryFromFn (drop : X → Dtor σ) (S : ConcreteSize) (f : Nat → Exec σ X) :
    fromFn drop S f = (do
      match ← tryFromFn drop Empty.elim S fun i => Exec.infallible (f i) with
      | .ok a => return a
      | .error never => nomatch never) := by
  rw [fromFn, build, tryFromFn, map_bind, bind_map_left]
  refine congrArg _ ?_
  funext r
  cases r with
  | ok a => rfl
  | error never => exact never.elim

/-- `from_fn` collects the results of the calls for `0, 1, 2, …`. -/
theorem fromFn_eq (drop : X → Dtor σ) (S : ConcreteSize) (f : Nat → Exec σ X) :
    fromFn drop S f = (do
      Exec.ofOption (ofFlat S (← Exec.traverse drop ((List.range S.count).map f) []))) := by
  have hcalls : (List.range S.count).map (fun i => Exec.infallible (f i)) =
      ((List.range S.count).map f).map Exec.infallible := (List.map_map ..).symm
  rw [fromFn_eq_tryFromFn, tryFromFn_eq, hcalls, Exec.tryTraverse_infallible, bind_assoc,
    bind_map_left]
  refine congrArg _ ?_
  funext xs
  rw [collect, bind_map_left]
  exact bind_pure _

@[simp] theorem index_eq (a : Array X S) (i : Nat) :
    (a.index i : Exec σ X) = Exec.unwrap a.flat[i]? := by
  rw [index]
  by_cases h : i < S.count
  · rw [Slice.index_of_lt (by exact h), pure_bind, toMem_apply]
    simp [Ty.count, h]
  · rw [Slice.index, if_neg (by exact h), Exec.panic_bind]
    simp [List.getElem?_eq_none (l := a.flat) (by simpa using h)]

/-- The calls for the indices of an array are the calls for its elements. -/
theorem map_range_flat (g : X → Exec σ Y) (a : Array X S) :
    (List.range S.count).map (fun i => do g (← Exec.unwrap a.flat[i]?)) = a.flat.map g := by
  rw [← a.length_flat, Exec.map_range_unwrap]

theorem mapRef_eq (drop : Y → Dtor σ) (f : X → Exec σ Y) (a : Array X S) :
    a.mapRef drop f = (do
      Exec.ofOption (ofFlat S (← Exec.traverse drop (a.flat.map f) []))) := by
  simp only [mapRef, fromFn_eq, index_eq, map_range_flat]

theorem zipWith_eq (drop : Z → Dtor σ) (f : X → Y → Exec σ Z) (a : Array X S)
    (b : Array Y S) :
    a.zipWith drop f b = (do
      Exec.ofOption (ofFlat S (← Exec.traverse drop (List.zipWith f a.flat b.flat) []))) := by
  have hcalls : (List.range S.count).map (fun i => do
      f (← Exec.unwrap a.flat[i]?) (← Exec.unwrap b.flat[i]?)) =
      List.zipWith f a.flat b.flat := by
    apply List.ext_getElem
    · simp
    · intro i hi _
      rw [List.length_map, List.length_range] at hi
      simp [hi]
  simp only [zipWith, fromFn_eq, index_eq, hcalls]

/-- Both implementations of `clone_array` clone the elements in order. -/
theorem clone_eq (drop : X → Dtor σ) (cloneElem : X → Exec σ X) (a : Array X S) :
    a.clone drop cloneElem = (do
      Exec.ofOption (ofFlat S (← Exec.traverse drop (a.flat.map cloneElem) []))) := by
  have hflat := mapRef_eq drop cloneElem a
  cases S with
  | param p => exact p.elim
  | len n =>
      have hstorage (o : Option (Array X (.len n))) :
          mk <$> Exec.ofOption (storage <$> o) = (Exec.ofOption o : Exec σ _) := by
        cases o <;> rfl
      have hstd : a.clone drop cloneElem = (do
          mk <$> Exec.ofOption (storage <$> ofFlat (.len n)
            (← Exec.traverse drop (a.flat.map cloneElem) []))) := map_bind ..
      simpa only [hstorage] using hstd
  | sum p q => exact hflat
  | prod p q => exact hflat

theorem tryFromSlice_eq {w : Nat} (drop : X → Dtor σ) (cloneElem : X → Exec σ X)
    (S : ConcreteSize) {m : Mem X} {slice : Slice .shared .elem} {xs : List X}
    (hlen : slice.len < 2 ^ w) (hxs : m.values slice.addr slice.len = some xs) :
    tryFromSlice w drop cloneElem S m slice =
      if S.count = xs.length then do
        let clones ← Exec.traverse drop (xs.map cloneElem) []
        Except.ok <$> Exec.ofOption (ofFlat S clones)
      else pure (.error ⟨⟩) := by
  have hslice := Mem.values_eq_some.mp hxs
  have hxslen : xs.length = slice.len := by
    rw [← Mem.length_slice m slice.addr slice.len, hslice, List.length_map]
  rw [tryFromSlice, fromSlice, Slice.toArray_eq hlen, hxslen]
  by_cases h : S.count = slice.len
  · obtain ⟨a, -, ha⟩ := exists_ofFlat (S := S) (l := xs) (by rw [hxslen, h])
    have hload : load S m slice.addr = some a := by
      rw [load_eq_some, h, hslice, ha]
    rw [if_pos h, if_pos h]
    dsimp only
    rw [hload, Exec.ofOption_some, pure_bind, clone_eq, ha, map_bind]
  · rw [if_neg h, if_neg h]

/-- The addresses of the elements of a borrowed array. -/
def elementRefs {μ : Mutability} (a : Ref μ (.arr S t)) : List (Ref μ t) :=
  (List.range S.count).map fun i => ⟨a.addr + i * t.count⟩

theorem eachMut_eq (a : Ref .exclusive (.arr S t)) :
    (eachMut a : Exec σ _) = Exec.ofOption (ofFlat S (elementRefs a)) := by
  have hcalls : (List.range S.count).map (fun i => (pure ⟨a.addr + i * t.stride⟩ :
      Exec σ (Ref .exclusive t))) = (elementRefs a).map pure := by
    rw [elementRefs, List.map_map]
    simp only [Function.comp_def, Ty.stride_eq]
  have hbase : (asMutSlice a).addr = a.addr := rfl
  rw [eachMut, fromFn_eq, hbase, hcalls, Exec.traverse_pure, pure_bind, List.nil_append]

theorem eachRef_eq (a : Ref .shared (.arr S t)) :
    (eachRef a : Exec σ _) = Exec.ofOption (ofFlat S (elementRefs a)) := by
  have hcalls : (List.range S.count).map (fun i => ((asSlice a).index i :
      Exec σ (Ref .shared t))) = (elementRefs a).map pure := by
    rw [elementRefs, List.map_map]
    apply List.map_congr_left
    intro i hi
    rw [Slice.index_of_lt (by exact List.mem_range.mp hi)]
    rfl
  rw [eachRef, fromFn_eq, hcalls, Exec.traverse_pure, pure_bind, List.nil_append]

theorem length_elementRefs {μ : Mutability} (a : Ref μ (.arr S t)) :
    (elementRefs a).length = S.count := by
  rw [elementRefs, List.length_map, List.length_range]

end Array

end ConstArray
