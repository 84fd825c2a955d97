import ConstArray.Array.Consume
import ConstArray.Owner.World

/-! # Owning operations

Each operation that takes, builds or gives back arrays by value conserves ownership,
for all user code that does: the elements it is given are those of its result, or it
has handed them over or dropped them.
-/

namespace ConstArray

open Foundation

variable {U X Y Z E : Type} {A B P S S2 : ConcreteSize} {d : Destructor U}
variable [Owning X] [Owning Y] [Owning Z] [Owning E]

/-- The errors of the fallible builders carry no elements. -/
instance : Owning Array.TryFromSliceError := ⟨fun _ => []⟩

instance : Owning Array.TryFromIterError := ⟨fun _ => []⟩

namespace Array

/-- Dropping an array drops its elements. -/
theorem conserves_drop (a : Array X S) :
    (World.accounting U).Conserves (owned a) (a.drop d.dropValue).run fun _ => 0 := by
  rw [owned_array, drop_eq]
  exact Accounting.Conserves.slice d.conserves_dropValue a.flat

/-- The elements a builder has collected become those of the array. -/
theorem conserves_ofFlat {xs : List X} (h : xs.length = S.count) :
    (World.accounting U).Conserves (total owned xs) (Exec.ofOption (ofFlat S xs)) owned := by
  obtain ⟨a, hof, hflat⟩ := exists_ofFlat h
  exact .ofOption hof (by rw [owned_array, hflat])

/-! ## Builders -/

/-- A builder is a traversal with one value for each index. -/
theorem conserves_traverse {cs : List (Exec (World U) X)}
    (h : ∀ c ∈ cs, (World.accounting U).Conserves 0 c owned) (done : List X)
    (hlength : done.length + cs.length = S.count) :
    (World.accounting U).Conserves (total owned done) (do
      Exec.ofOption (ofFlat S (← Exec.traverse d.dropValue cs done))) owned :=
  Accounting.Conserves.traverse d.conserves_dropValue h done fun _ hxs =>
    conserves_ofFlat (hxs.trans hlength)

/-- A call for an index owns nothing before it, and owns the element that it returns. -/
theorem conserves_fromFn (S : ConcreteSize) {f : Nat → Exec (World U) X}
    (hf : ∀ i, (World.accounting U).Conserves 0 (f i) owned) :
    (World.accounting U).Conserves 0 (fromFn d.dropValue S f) owned := by
  rw [fromFn_eq]
  exact conserves_traverse (List.forall_mem_map.mpr fun i _ => hf i) [] (by simp)

/-- An error takes the place of the array: it owns what the failing call returned, and the
elements before it are dropped. -/
theorem conserves_tryFromFn (S : ConcreteSize) {f : Nat → Exec (World U) (Except E X)}
    (hf : ∀ i, (World.accounting U).Conserves 0 (f i) owned) :
    (World.accounting U).Conserves 0 (tryFromFn d.dropValue d.dropValue S f) owned := by
  rw [tryFromFn_eq]
  refine Accounting.Conserves.tryTraverse d.conserves_dropValue d.conserves_dropValue
    (fun c hc => ?_) [] (fun xs hxs => ?_) fun e => .pure rfl
  · obtain ⟨i, -, rfl⟩ := List.mem_map.mp hc
    exact (hf i).congr rfl fun r => (owned_except r).symm
  · have hlength : xs.length = S.count := by simpa using hxs
    exact (conserves_ofFlat hlength).map fun _ => rfl

/-- The originals stay with their owner, so only the clones change hands. -/
theorem conserves_clone {cloneElem : X → Exec (World U) X}
    (hclone : ∀ x, (World.accounting U).Conserves 0 (cloneElem x) owned) (a : Array X S) :
    (World.accounting U).Conserves 0 (a.clone d.dropValue cloneElem) owned := by
  rw [clone_eq]
  exact conserves_traverse (List.forall_mem_map.mpr fun x _ => hclone x) [] (by simp)

omit [Owning X] [Owning Y] in
theorem conserves_zipWith {f : X → Y → Exec (World U) Z}
    (hf : ∀ x y, (World.accounting U).Conserves 0 (f x y) owned) (a : Array X S)
    (b : Array Y S) :
    (World.accounting U).Conserves 0 (a.zipWith d.dropValue f b) owned := by
  rw [zipWith_eq, ← List.map_uncurry_zip_eq_zipWith]
  exact conserves_traverse (List.forall_mem_map.mpr fun xy _ => hf xy.1 xy.2) [] (by simp)

theorem conserves_tryFromSlice {w : Nat} {cloneElem : X → Exec (World U) X}
    (hclone : ∀ x, (World.accounting U).Conserves 0 (cloneElem x) owned) (S : ConcreteSize)
    {m : Mem X} {slice : Slice .shared .elem} {xs : List X} (hlen : slice.len < 2 ^ w)
    (hxs : m.values slice.addr slice.len = some xs) :
    (World.accounting U).Conserves 0 (tryFromSlice w d.dropValue cloneElem S m slice) owned := by
  rw [tryFromSlice_eq d.dropValue cloneElem S hlen hxs]
  by_cases h : S.count = xs.length
  · rw [if_pos h]
    refine Accounting.Conserves.traverse d.conserves_dropValue (fun c hc => ?_) []
      fun ys hys => ?_
    · obtain ⟨x, -, rfl⟩ := List.mem_map.mp hc
      exact hclone x
    · have hlength : ys.length = S.count := by simpa [h] using hys
      exact (conserves_ofFlat hlength).map fun _ => rfl
  · rw [if_neg h]
    exact .pure rfl

/-- The iterator of the caller may keep items and drop them with it. -/
theorem conserves_tryFromIter (S : ConcreteSize) {next : Exec (World U) (Option X)}
    {dropIter : Exec (World U) Unit} (hnext : (World.accounting U).Conserves 0 next owned)
    (hdropIter : (World.accounting U).Conserves 0 dropIter fun _ => 0) :
    (World.accounting U).Conserves 0 (tryFromIter d.dropValue S next dropIter) owned := by
  refine Accounting.Conserves.inScope (m := 0) (n := 0) ?_ hdropIter fun r => ?_
  · refine (conserves_tryFromFn S fun _ => hnext.bind fun x => ?_).bind fun r => ?_
    · cases x with
      | some x => exact .pure (owned_option (some x)).symm
      | none => exact .pure rfl
    · cases r with
      | error e => exact .pure rfl
      | ok a =>
          -- the array is live during the extra call of `next`
          have hprobe := hnext.onUnwind (conserves_drop (d := d) a)
          refine (hprobe.congr (zero_add _) fun _ => rfl).bind ?_
          intro x
          cases x with
          | none => exact .pure (zero_add _)
          | some x =>
              have hsurplus := (d.conserves_dropValue x).andThen (conserves_drop (d := d) a)
              rw [← owned_option]
              exact hsurplus.bind fun _ => .pure rfl
  · cases r with
    | ok a => exact conserves_drop a
    | error e => exact .pure (a := ()) rfl

/-! ## Consumers -/

/-- `f` takes over the element it is called with, and the array owns what it returns. -/
theorem conserves_map (unreachable : Exec (World U) Y) {f : X → Exec (World U) Y}
    (hf : ∀ x, (World.accounting U).Conserves (owned x) (f x) owned) (a : Array X S) :
    (World.accounting U).Conserves (owned a) (a.map unreachable d.dropValue d.dropValue f)
      owned := by
  rw [map_eq, owned_array]
  refine (Accounting.Conserves.mapOwned d.conserves_dropValue d.conserves_dropValue hf a.flat []
    fun ys hys => ?_).congr (add_zero _) fun _ => rfl
  have hlength : ys.length = S.count := by simpa using hys
  exact conserves_ofFlat hlength

/-- Pairs own what their two lists own. -/
theorem total_zip (xs : List X) (ys : List Y) (h : xs.length = ys.length) :
    total owned (xs.zip ys) = total owned xs + total owned ys := by
  induction xs generalizing ys with
  | nil =>
      rw [List.length_nil, eq_comm, List.length_eq_zero_iff] at h
      rw [h]
      rfl
  | cons x xs ih =>
      cases ys with
      | nil => cases h
      | cons y ys =>
          rw [List.zip_cons_cons, total_cons, owned_prod, ih ys (Nat.succ.inj h), total_cons,
            total_cons, add_add_add_comm]

theorem conserves_zip (unreachable : Exec (World U) (X × Y)) (a : Array X S) (b : Array Y S) :
    (World.accounting U).Conserves (owned a + owned b)
      (a.zip unreachable d.dropValue d.dropValue b) owned := by
  rw [zip_eq, owned_array, owned_array, ← total_zip _ _ (by simp)]
  exact conserves_ofFlat (by simp)

/-- `fill` is dropped at the end, its clones are in the array. -/
theorem conserves_padFrom {cloneElem : X → Exec (World U) X}
    (hclone : ∀ x, (World.accounting U).Conserves 0 (cloneElem x) owned) (p : AtMost P S)
    (h : P.count ≤ S.count) (initial : Array X P) (fill : X) :
    (World.accounting U).Conserves (owned initial + owned fill)
      (padFrom d.dropValue cloneElem initial p fill) owned := by
  rw [padFrom_eq d.dropValue cloneElem p h, owned_array]
  refine Accounting.Conserves.inScope (conserves_traverse (fun c hc => ?_) initial.flat ?_)
    (d.conserves_dropValue fill) conserves_drop
  · rw [List.eq_of_mem_replicate hc]
    exact hclone fill
  · rw [length_flat, List.length_replicate, Nat.add_sub_cancel' h]

/-- The elements that do not fit are dropped, and the prefix with them if that panics. -/
theorem conserves_truncate (p : AtMost P S) (h : P.count ≤ S.count) (a : Array X S) :
    (World.accounting U).Conserves (owned a) (a.truncate d.dropValue p) owned := by
  obtain ⟨b, hb, htruncate⟩ := truncate_eq d.dropValue p h a
  have hsplit : total owned (a.flat.drop P.count) + total owned b.flat = owned a := by
    rw [hb, add_comm, ← total_append, List.take_append_drop, owned_array]
  have hrest := (Accounting.Conserves.slice d.conserves_dropValue (a.flat.drop P.count)).onUnwind
    (Accounting.Conserves.slice d.conserves_dropValue b.flat)
  rw [htruncate]
  refine (hrest.congr hsplit fun _ => rfl).bind fun _ => .pure ?_
  rw [zero_add, owned_array]

/-! ## Conversions -/

theorem conserves_concat (a : Array X A) (b : Array X B) :
    (World.accounting U).Conserves (owned a + owned b) (Exec.ofOption (a.concat b)) owned := by
  rw [concat_eq, owned_array, owned_array, ← total_append]
  exact conserves_ofFlat (by simp)

/-- A conversion moves the elements from one nesting to another, in the same order. -/
theorem conserves_parts (a : Array X (.sum A B)) :
    (World.accounting U).Conserves (owned a) (Exec.ofOption a.parts) owned := by
  obtain ⟨fst, snd, hparts, hflat⟩ := exists_parts a
  exact .ofOption hparts (by rw [owned_prod, owned_array, owned_array, owned_array, hflat,
    total_append])

theorem conserves_fromChunks (c : Array (Array X B) A) :
    (World.accounting U).Conserves (owned c) (Exec.ofOption c.fromChunks) owned := by
  obtain ⟨a, ha, hflat⟩ := exists_fromChunks c
  exact .ofOption ha (by rw [owned_chunks, owned_array, hflat])

theorem conserves_intoChunks (a : Array X (.prod A B)) :
    (World.accounting U).Conserves (owned a) (Exec.ofOption a.intoChunks) owned := by
  obtain ⟨c, hc, hflat⟩ := exists_intoChunks a
  exact .ofOption hc (by rw [owned_chunks, owned_array, hflat])

theorem conserves_cast (p : SameLen S S2) (h : S.count = S2.count) (a : Array X S) :
    (World.accounting U).Conserves (owned a) (Exec.ofOption (a.cast p)) owned := by
  obtain ⟨b, hb, hflat⟩ := exists_cast p h a
  exact .ofOption hb (by rw [owned_array, owned_array, hflat])

/-- Whether the sizes fit or not, all elements are in what is returned. -/
theorem conserves_tryCast {w : Nat} (hS : S.Evaluates w) (hS2 : S2.Evaluates w)
    (a : Array X S) :
    (World.accounting U).Conserves (owned a) (Exec.ofOption (tryCast w S2 a)) owned := by
  rw [tryCast_eq hS hS2]
  by_cases h : S.count = S2.count
  · obtain ⟨b, hb, hflat⟩ := exists_ofFlat (S := S2) (l := a.flat) (by simpa using h)
    refine .ofOption (a := .ok b) (by rw [if_pos h, hb]; rfl) ?_
    rw [owned_array, ← hflat, ← owned_array]
    rfl
  · exact .ofOption (if_neg h) rfl

theorem conserves_new {n : Nat} (v : List.Vector X n) :
    (World.accounting U).Conserves (owned v) (pure (new v)) owned :=
  .pure (by rw [owned_vector, owned_array, flat_new])

theorem conserves_intoArray {n : Nat} (a : Array X (.len n)) :
    (World.accounting U).Conserves (owned a) (Exec.ofOption a.intoArray) owned :=
  .ofOption (intoArray_eq a) rfl

end Array

end ConstArray
