import ConstArray.Foundation.Deque
import ConstArray.Iter.IntoIter

/-! # The by-value iterator refines a double-ended queue

An iterator holds a list of elements if exactly the slots in `alive` are
initialized, with these elements. Every method then does what the queue of these
elements does, with the same outcome in the same world.
-/

namespace ConstArray

open Foundation

variable {σ X : Type} {S : ConcreteSize} {w : Nat} {overflowChecks : Bool}

namespace IntoIter

/-! ## Slots -/

theorem encode_maybeUninit_arr (a : Array (Option X) S) :
    (TypeRepr.maybeUninit.arr S).codec.encode a = a.flat := by
  rw [TypeRepr.encode_arr]
  exact List.flatMap_singleton' a.flat

@[simp] theorem width_maybeUninit_arr :
    (TypeRepr.maybeUninit.arr S : TypeRepr X _).codec.width = S.count := by
  simp [TypeRepr.width_arr, TypeRepr.maybeUninit, Codec.maybeUninit]

theorem cells_apply (it : IntoIter X S) (i : Nat) : it.cells i = it.data.flat[i]?.join := by
  rw [cells, TypeRepr.image_eq, encode_maybeUninit_arr]

/-- Any contents are a value of `MaybeUninit`. -/
theorem cells_setCells (it : IntoIter X S) {m : Mem X} (h : ∀ i ≥ S.count, m i = none) :
    (it.setCells m).cells = m := by
  obtain ⟨storage, hflat⟩ := S.exists_flatten_eq (l := m.slice 0 S.count) (by simp)
  have hload : (TypeRepr.maybeUninit.arr S).load m 0 = some (⟨storage⟩ : Array _ S) := by
    have hencode : (TypeRepr.maybeUninit.arr S).codec.encode (⟨storage⟩ : Array _ S) =
        m.slice 0 S.count := (encode_maybeUninit_arr _).trans hflat
    rw [TypeRepr.load_eq, width_maybeUninit_arr, ← hencode, Codec.decode_encode]
  funext i
  rw [cells_apply, setCells, hload]
  change (S.flatten storage)[i]?.join = m i
  rw [hflat]
  rcases Nat.lt_or_ge i S.count with hi | hi
  · simp [Mem.slice, hi]
  · rw [List.getElem?_eq_none (by simpa using hi), h i hi]
    rfl

theorem index_data (it : IntoIter X S) {i : Nat} (hi : i < S.count) :
    (it.data.index i : Exec σ _) = pure (it.cells i) := by
  have hlength : i < it.data.flat.length := by simpa using hi
  rw [Array.index_eq, cells_apply, List.getElem?_eq_getElem hlength]
  rfl

/-- `alive` is a subrange of the storage, and exactly the slots in it are initialized,
with the elements `xs`. -/
structure Holds (it : IntoIter X S) (xs : List X) : Prop where
  stop_eq : it.start + xs.length = it.stop
  stop_le : it.stop ≤ S.count
  cells_eq : it.cells = Mem.holding it.start xs

variable {it : IntoIter X S} {x : X} {xs ys : List X}

theorem Holds.length_eq (h : it.Holds xs) : xs.length = it.aliveLen := by
  rw [aliveLen, ← h.stop_eq, Nat.add_sub_cancel_left]

theorem Holds.of_setCells (it : IntoIter X S) {m : Mem X} (hm : m = Mem.holding it.start xs)
    (hstop : it.start + xs.length = it.stop) (hle : it.stop ≤ S.count) :
    (it.setCells m).Holds xs where
  stop_eq := hstop
  stop_le := hle
  cells_eq := by
    rw [cells_setCells it fun i hi => hm ▸ Mem.holding_of_le (by omega)]
    exact hm

/-- An iterator that holds nothing has an empty `alive`. -/
theorem Holds.not_lt (h : it.Holds []) : ¬ it.start < it.stop := by
  rw [← h.stop_eq]
  exact Nat.lt_irrefl it.start

/-- `into_iter` holds the elements of the array. -/
theorem exists_intoIter (a : Array X S) : ∃ it, a.intoIter = some it ∧ it.Holds a.flat := by
  obtain ⟨storage, hflat⟩ := S.exists_flatten_eq (l := a.flat.map some) (by simp)
  have hencode : (TypeRepr.elem.arr S).codec.encode a =
      (TypeRepr.maybeUninit.arr S).codec.encode (⟨storage⟩ : Array _ S) := by
    rw [Array.encode_elem_arr, encode_maybeUninit_arr]
    exact hflat.symm
  have hdata : transmuteLayout (TypeRepr.elem.arr S) (TypeRepr.maybeUninit.arr S) a =
      some (⟨storage⟩ : Array _ S) := by
    rw [transmuteLayout_eq_decode _ _ (by simp), hencode, Codec.decode_encode]
  refine ⟨⟨⟨storage⟩, 0, S.count⟩, by rw [Array.intoIter, hdata]; rfl, by simp, Nat.le_refl _, ?_⟩
  apply Mem.eq_holding
  · intro i hi
    exact absurd hi (Nat.not_lt_zero i)
  · intro i
    have hcell : (S.flatten storage)[i]? = a.flat[i]?.map some := by
      rw [hflat, List.getElem?_map]
    rw [cells_apply, Nat.zero_add]
    change (S.flatten storage)[i]?.join = _
    rw [hcell]
    cases a.flat[i]? <;> rfl

theorem readSlot_apply (it : IntoIter X S) {i : Nat} (hi : i < S.count)
    (hx : it.cells i = some x) (s : σ) :
    readSlot i (it, s) = .ok x (it.setCells (it.cells.moveOut i 1), s) := by
  change Outcome.bind ((it.data.index i : Exec _ _) (it, s)) _ = _
  rw [index_data it hi, hx]
  rfl

theorem dropRange_apply (it : IntoIter X S) (leak : Exec σ Unit) (drop : X → Dtor σ)
    {start n : Nat}
    (hle : start + n ≤ S.count) (hys : it.cells.slice start n = ys.map some) (s : σ) :
    dropRange leak drop start (start + n) (it, s) =
      (Dtor.slice drop ys).lift.run (it.setCells (it.cells.moveOut start n), s) := by
  change (if start ≤ start + n ∧ start + n ≤ S.count then _ else _ : Exec _ _) (it, s) = _
  rw [if_pos ⟨Nat.le_add_right _ _, hle⟩, Nat.add_sub_cancel_left, dropInPlace_eq drop hys]
  rfl

theorem aliveNext_apply (h : it.start < it.stop) (s : σ) :
    aliveNext (it, s) = .ok (some it.start) ({ it with start := it.start + 1 }, s) := by
  change (if it.start < it.stop then _ else _ : Exec _ _) (it, s) = _
  rw [if_pos h]
  rfl

theorem aliveNextBack_apply (h : it.start < it.stop) (s : σ) :
    aliveNextBack (it, s) = .ok (some (it.stop - 1)) ({ it with stop := it.stop - 1 }, s) := by
  change (if it.start < it.stop then _ else _ : Exec _ _) (it, s) = _
  rw [if_pos h]
  rfl

theorem next_empty (h : ¬ it.start < it.stop) (s : σ) :
    next (it, s) = .ok none (it, s) ∧ nextBack (it, s) = .ok none (it, s) := by
  constructor
  · change Outcome.bind ((if it.start < it.stop then _ else _ : Exec _ _) (it, s)) _ = _
    rw [if_neg h]
    rfl
  · change Outcome.bind ((if it.start < it.stop then _ else _ : Exec _ _) (it, s)) _ = _
    rw [if_neg h]
    rfl

/-- `next` reads the first slot, and `alive` no longer covers it. -/
theorem Holds.next_cons (h : it.Holds (x :: xs)) (s : σ) :
    ∃ it', it'.Holds xs ∧ next (it, s) = .ok (some x) (it', s) := by
  have hstop := h.stop_eq
  have hle := h.stop_le
  rw [List.length_cons] at hstop
  have hmove : it.cells.moveOut it.start 1 = Mem.holding (it.start + 1) xs := by
    rw [h.cells_eq]
    exact Mem.moveOut_holding_left it.start [x] xs
  have hx : it.cells it.start = some x := by
    rw [h.cells_eq]
    exact Mem.holding_add it.start 0 (x :: xs)
  refine ⟨_, .of_setCells { it with start := it.start + 1 } hmove
    (show it.start + 1 + xs.length = it.stop by omega) hle, ?_⟩
  change Outcome.bind (aliveNext (it, s)) _ = _
  rw [aliveNext_apply (by omega)]
  change Outcome.bind (readSlot it.start ({ it with start := it.start + 1 }, s)) _ = _
  rw [readSlot_apply { it with start := it.start + 1 } (by omega) hx]
  rfl

/-- `next_back` shrinks `alive` first, and reads the slot it no longer covers. -/
theorem Holds.nextBack_concat (h : it.Holds (xs ++ [x])) (s : σ) :
    ∃ it', it'.Holds xs ∧ nextBack (it, s) = .ok (some x) (it', s) := by
  have hstop := h.stop_eq
  have hle := h.stop_le
  rw [List.length_append, List.length_singleton] at hstop
  have hlast : it.stop - 1 = it.start + xs.length := by omega
  have hmove : it.cells.moveOut (it.stop - 1) 1 = Mem.holding it.start xs := by
    rw [h.cells_eq, hlast]
    exact Mem.moveOut_holding_right it.start xs [x]
  have hx : it.cells (it.stop - 1) = some x := by
    rw [h.cells_eq, hlast, Mem.holding_add, List.getElem?_concat_length]
  refine ⟨_, .of_setCells { it with stop := it.stop - 1 } hmove hlast.symm
    (show it.stop - 1 ≤ S.count by omega), ?_⟩
  change Outcome.bind (aliveNextBack (it, s)) _ = _
  rw [aliveNextBack_apply (by omega)]
  change Outcome.bind (readSlot (it.stop - 1) ({ it with stop := it.stop - 1 }, s)) _ = _
  rw [readSlot_apply { it with stop := it.stop - 1 } (by omega) hx]
  rfl

/-! ## The methods refine those of the queue -/

/-- The iterator and the queue of its elements, in the same world. -/
abbrev Simulates (σ X : Type) (S : ConcreteSize) : IntoIter X S × σ → List X × σ → Prop :=
  Exec.Local Holds

/-- An exhausted iterator answers `None`, however often it is asked. -/
theorem next_refines : Exec.Refines (Simulates σ X S) Eq next Deque.next := by
  refine .of_local fun it xs h s => ?_
  cases xs with
  | nil =>
      have hempty : ¬ it.start < it.stop := h.not_lt
      rw [(next_empty hempty s).1]
      exact .ok rfl ⟨h, rfl⟩
  | cons x xs =>
      obtain ⟨it', h', hnext⟩ := h.next_cons s
      rw [hnext]
      exact .ok rfl ⟨h', rfl⟩

theorem nextBack_refines : Exec.Refines (Simulates σ X S) Eq nextBack Deque.nextBack := by
  refine .of_local fun it xs h s => ?_
  rcases xs.eq_nil_or_concat' with rfl | ⟨xs, x, rfl⟩
  · have hempty : ¬ it.start < it.stop := h.not_lt
    rw [(next_empty hempty s).2]
    exact .ok rfl ⟨h, rfl⟩
  · obtain ⟨it', h', hnext⟩ := h.nextBack_concat s
    rw [hnext, Deque.nextBack_apply, List.getLast?_concat, List.dropLast_concat]
    exact .ok rfl ⟨h', rfl⟩

/-- Shrink `alive` from the front, then drop what it no longer covers. -/
theorem Holds.skip_front (h : it.Holds (ys ++ xs)) (leak : Exec σ Unit) (drop : X → Dtor σ)
    (s : σ) :
    ∃ it', it'.Holds xs ∧
      dropRange leak drop it.start (it.start + ys.length)
        ({ it with start := it.start + ys.length }, s) =
      (Dtor.slice drop ys).lift.run (it', s) := by
  have hstop := h.stop_eq
  have hle := h.stop_le
  rw [List.length_append] at hstop
  have hmove : it.cells.moveOut it.start ys.length = Mem.holding (it.start + ys.length) xs := by
    rw [h.cells_eq]
    exact Mem.moveOut_holding_left it.start ys xs
  have hys : it.cells.slice it.start ys.length = ys.map some := by
    rw [h.cells_eq]
    exact Mem.slice_holding_left it.start ys xs
  refine ⟨_, .of_setCells { it with start := it.start + ys.length } hmove
    (show it.start + ys.length + xs.length = it.stop by omega) hle, ?_⟩
  exact dropRange_apply { it with start := it.start + ys.length } leak drop (by omega) hys s

/-- Shrink `alive` from the back, then drop what it no longer covers. -/
theorem Holds.skip_back (h : it.Holds (xs ++ ys)) (leak : Exec σ Unit) (drop : X → Dtor σ)
    (s : σ) :
    ∃ it', it'.Holds xs ∧
      dropRange leak drop (it.stop - ys.length) it.stop
        ({ it with stop := it.stop - ys.length }, s) =
      (Dtor.slice drop ys).lift.run (it', s) := by
  have hstop := h.stop_eq
  have hle := h.stop_le
  rw [List.length_append] at hstop
  have hfirst : it.stop - ys.length = it.start + xs.length := by omega
  have hlast : it.stop = it.start + xs.length + ys.length := by omega
  have hmove : it.cells.moveOut (it.stop - ys.length) ys.length =
      Mem.holding it.start xs := by
    rw [h.cells_eq, hfirst]
    exact Mem.moveOut_holding_right it.start xs ys
  have hys : it.cells.slice (it.start + xs.length) ys.length = ys.map some := by
    rw [h.cells_eq]
    exact Mem.slice_holding_right it.start xs ys
  refine ⟨_, .of_setCells { it with stop := it.stop - ys.length } hmove hfirst.symm
    (show it.stop - ys.length ≤ S.count by omega), ?_⟩
  have hdrop := dropRange_apply { it with stop := it.stop - ys.length } leak drop
    (by omega : it.stop - ys.length + ys.length ≤ S.count) (hfirst ▸ hys) s
  rwa [Nat.sub_add_cancel (by omega)] at hdrop

/-- More elements than are left are all skipped, without an overflow. -/
theorem nth_refines (hS : S.Evaluates w) (leak : Exec σ Unit) (drop : X → Dtor σ) (n : Nat) :
    Exec.Refines (Simulates σ X S) Eq (nth w overflowChecks leak drop n)
      (Deque.nth drop n) := by
  refine .of_local fun it xs h s => ?_
  have hcount := hS.count_lt
  have hle := h.stop_le
  have hskipped : min n it.aliveLen = (xs.take n).length := by
    rw [List.length_take, h.length_eq]
  have hstop : it.start + (xs.take n).length ≤ it.stop := by
    rw [← h.stop_eq, List.length_take]
    omega
  have hsplit : it.Holds (xs.take n ++ xs.drop n) := by rwa [List.take_append_drop]
  obtain ⟨it', h', hdrop⟩ := hsplit.skip_front leak drop s
  have hnth : nth w overflowChecks leak drop n (it, s) =
      ((Dtor.slice drop (xs.take n)).lift.run >>= fun _ => next) (it', s) := by
    rw [Exec.bind_apply, ← hdrop, ← hskipped]
    have hadd : it.start + min n it.aliveLen < 2 ^ w := by omega
    change (do
      Exec.put { it with start := ← addUsize w overflowChecks it.start (min n it.aliveLen) }
      dropRange leak drop it.start (← addUsize w overflowChecks it.start (min n it.aliveLen))
      next : Exec (IntoIter X S × σ) (Option X)) (it, s) = _
    simp only [addUsize_of_lt hadd, pure_bind]
    rfl
  rw [hnth, Deque.nth_apply]
  exact (Exec.Refines.lift _).bind_same (fun _ => next_refines) ⟨h', rfl⟩

theorem nthBack_refines (leak : Exec σ Unit) (drop : X → Dtor σ) (n : Nat) :
    Exec.Refines (Simulates σ X S) Eq (nthBack w overflowChecks leak drop n)
      (Deque.nthBack drop n) := by
  refine .of_local fun it xs h s => ?_
  have hskipped : min n it.aliveLen = (xs.drop (xs.length - n)).length := by
    rw [List.length_drop, ← h.length_eq]
    omega
  have hstop : (xs.drop (xs.length - n)).length ≤ it.stop := by
    rw [← h.stop_eq, List.length_drop]
    omega
  have hsplit : it.Holds (xs.take (xs.length - n) ++ xs.drop (xs.length - n)) := by
    rwa [List.take_append_drop]
  obtain ⟨it', h', hdrop⟩ := hsplit.skip_back leak drop s
  have hnth : nthBack w overflowChecks leak drop n (it, s) =
      ((Dtor.slice drop (xs.drop (xs.length - n))).lift.run >>= fun _ => nextBack) (it', s) := by
    rw [Exec.bind_apply, ← hdrop, ← hskipped]
    have hsub : min n it.aliveLen ≤ it.stop := by omega
    change (do
      Exec.put { it with stop := ← subUsize w overflowChecks it.stop (min n it.aliveLen) }
      dropRange leak drop (← subUsize w overflowChecks it.stop (min n it.aliveLen)) it.stop
      nextBack : Exec (IntoIter X S × σ) (Option X)) (it, s) = _
    simp only [subUsize_of_le hsub, pure_bind]
    rfl
  rw [hnth, Deque.nthBack_apply]
  exact (Exec.Refines.lift _).bind_same (fun _ => nextBack_refines) ⟨h', rfl⟩

theorem Holds.sizeHint_eq (h : it.Holds xs) : it.sizeHint = (xs.length, some xs.length) := by
  rw [h.length_eq, aliveLen, sizeHint]
  split
  · rfl
  · rw [Nat.sub_eq_zero_of_le (by omega)]

theorem Holds.len_eq (h : it.Holds xs) : (it.len : Exec σ Nat) = pure xs.length := by
  rw [len, h.sizeHint_eq]
  exact if_pos rfl

theorem Holds.asSlice_eq (h : it.Holds xs) : (it.asSlice : Exec σ (List X)) = pure xs := by
  have hslice : it.cells.slice it.start xs.length = xs.map some := by
    have hleft := Mem.slice_holding_left it.start xs []
    rwa [List.append_nil, ← h.cells_eq] at hleft
  have hle : it.start ≤ it.stop := Nat.le.intro h.stop_eq
  rw [asSlice, if_pos ⟨hle, h.stop_le⟩, ← aliveLen, ← h.length_eq,
    Mem.values_eq_some.mpr hslice, Exec.ofOption_some]

/-- `as_mut_slice` does not change what `alive` covers. -/
theorem replace_refines (j : Nat) (x : X) :
    Exec.Refines (Simulates σ X S) Eq (replace j x) (Deque.replace j x) := by
  refine .bind .get ?_
  intro it xs h
  rw [h.asSlice_eq, pure_bind]
  rcases Nat.lt_or_ge j xs.length with hj | hj
  · have hwrite : it.cells.write (it.start + j) x = Mem.holding it.start (xs.set j x) := by
      rw [h.cells_eq, Mem.write_holding_set it.start xs hj]
    have hstop : it.start + (xs.set j x).length = it.stop := by
      rw [List.length_set, h.stop_eq]
    rw [List.getElem?_eq_getElem hj]
    exact .bind (.put (.of_setCells it hwrite hstop h.stop_le)) fun _ _ _ => .pure rfl
  · rw [List.getElem?_eq_none hj]
    exact .pure rfl

/-! ## The methods that take the iterator by value -/

theorem drop_apply (h : it.Holds xs) (leak : Exec σ Unit) (dropElem : X → Dtor σ) (s : σ) :
    ∃ it', it'.Holds [] ∧
      drop leak dropElem (it, s) = (Dtor.slice dropElem xs).lift.run (it', s) := by
  have hle := h.stop_le
  have hys : it.cells.slice it.start xs.length = xs.map some := by
    have hleft := Mem.slice_holding_left it.start xs []
    rwa [List.append_nil, ← h.cells_eq] at hleft
  have hmove : it.cells.moveOut it.start xs.length = Mem.holding 0 [] := by
    have hleft := Mem.moveOut_holding_left it.start xs []
    rw [List.append_nil, ← h.cells_eq] at hleft
    rw [hleft]
    funext i
    simp [Mem.holding]
  refine ⟨_, .of_setCells { it with start := 0, stop := 0 } hmove rfl (Nat.zero_le _), ?_⟩
  have hdrop := dropRange_apply { it with start := 0, stop := 0 } leak dropElem
    (h.stop_eq ▸ hle) hys s
  rwa [h.stop_eq] at hdrop

/-- Dropping an iterator drops the elements that are left. -/
theorem Holds.dropGlue_eq (h : it.Holds xs) (leak : Exec σ Unit) (dropElem : X → Dtor σ) :
    it.dropGlue leak dropElem = (Dtor.slice dropElem xs).run := by
  funext s
  obtain ⟨it', -, hdrop⟩ := drop_apply h leak dropElem s
  have hlift : (Dtor.slice dropElem xs).lift.run (it', s) =
      (Dtor.slice dropElem xs).run.lift (it', s) := rfl
  rw [dropGlue, Exec.withLocal, hdrop, hlift, Exec.lift]
  cases (Dtor.slice dropElem xs).run s <;> rfl

theorem Holds.count_eq (h : it.Holds xs) (leak : Exec σ Unit) (dropElem : X → Dtor σ) :
    it.count leak dropElem = Deque.count dropElem xs := by
  funext s
  change ((it.dropGlue leak dropElem).onUnwind (pure ()) >>= fun _ => pure it.aliveLen) s = _
  rw [Exec.onUnwind_noop, h.dropGlue_eq, ← h.length_eq]
  rfl

theorem Holds.last_eq (h : it.Holds xs) (leak : Exec σ Unit) (dropElem : X → Dtor σ) :
    it.last leak dropElem = Deque.last dropElem xs := by
  have hlocal : it.last leak dropElem = Exec.withLocal xs Deque.nextBack
      (fun ys => (Dtor.slice dropElem ys).run) fun x => (Dtor.option dropElem x).run :=
    Exec.Refines.withLocal h nextBack_refines
      (fun _ _ hdrop => hdrop.dropGlue_eq leak dropElem) _
  rw [hlocal]
  rfl

/-! ## Cloning -/

/-- The clones so far are the elements of `new`, which owns them. -/
theorem cloneLoop_refines (hS : S.Evaluates w) (leak : Exec σ Unit) (dropElem : X → Dtor σ)
    (cloneElem : X → Exec σ X) {new : IntoIter X S} {done : List X} (hnew : new.Holds done)
    (hlength : new.stop + xs.length ≤ S.count) :
    Exec.Refines Eq Holds (cloneLoop w overflowChecks leak dropElem cloneElem xs new)
      (Exec.traverse dropElem (xs.map cloneElem) done) := by
  have hcount := hS.count_lt
  -- `new` holds what the traversal has collected, at an offset that is not zero
  induction xs generalizing new done with
  | nil => exact .pure hnew
  | cons x xs ih =>
      rw [List.length_cons] at hlength
      rw [cloneLoop, List.map_cons, Exec.traverse, index_data new (by omega), pure_bind,
        hnew.dropGlue_eq]
      refine (Exec.Refines.refl _).bind_same ?_
      intro c
      have hwrite : new.cells.write new.stop c = Mem.holding new.start (done ++ [c]) := by
        rw [hnew.cells_eq, ← hnew.stop_eq, Mem.write_holding_end]
      have hstop : new.start + (done ++ [c]).length = new.stop + 1 := by
        rw [← hnew.stop_eq, List.length_append, List.length_singleton, Nat.add_assoc]
      have hadd : (addUsize w overflowChecks (new.setCells (new.cells.write new.stop c)).stop 1 :
          Exec σ Nat) = pure (new.stop + 1) :=
        addUsize_of_lt (show new.stop + 1 < 2 ^ w by omega)
      dsimp only
      rw [hadd, Exec.onUnwind_pure, pure_bind]
      exact ih (.of_setCells { new with stop := new.stop + 1 } hwrite hstop
        (show new.stop + 1 ≤ S.count by omega)) (show new.stop + 1 + xs.length ≤ S.count by omega)

/-- A panic of a clone drops the clones made so far. -/
theorem Holds.clone_refines (h : it.Holds xs) (hS : S.Evaluates w) (leak : Exec σ Unit)
    (dropElem : X → Dtor σ) (cloneElem : X → Exec σ X) :
    Exec.Refines Eq Holds (it.clone w overflowChecks leak dropElem cloneElem)
      (Deque.clone dropElem cloneElem xs) := by
  have hstop := h.stop_eq
  have hle := h.stop_le
  obtain ⟨data, hof, hdata⟩ := Array.exists_ofFlat (S := S)
    (l := List.replicate S.count (none : Option X)) (by simp)
  have hfrom : (Array.fromFn (fun _ => Dtor.noop) S fun _ => pure none : Exec σ _) =
      pure data := by
    have hcalls : (List.range S.count).map (fun _ => (pure none : Exec σ (Option X))) =
        (List.replicate S.count none).map pure := by
      rw [List.map_const', List.length_range, List.map_replicate]
    rw [Array.fromFn_eq, hcalls, Exec.traverse_pure, pure_bind, List.nil_append, hof,
      Exec.ofOption_some]
  -- the empty range starts where the original's does, in a storage without elements
  have hnew : Holds { data, start := it.start, stop := it.start } ([] : List X) := by
    refine ⟨rfl, by dsimp only; omega, funext fun i => ?_⟩
    rw [cells_apply, hdata, List.getElem?_replicate]
    simp only [Mem.holding, List.getElem?_nil, ite_self]
    split <;> rfl
  rw [clone, hfrom, pure_bind, h.asSlice_eq]
  dsimp only
  rw [Exec.onUnwind_pure, pure_bind]
  exact cloneLoop_refines hS leak dropElem cloneElem hnew (by dsimp only; omega)

end IntoIter

end ConstArray
