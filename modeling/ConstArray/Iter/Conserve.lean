import ConstArray.Iter.Run

/-! # Runs of by-value iterators conserve ownership

Whatever is called on a pool of iterators, every element is yielded, dropped or still
in one of them, also when destructors and clones panic.
-/

namespace ConstArray

open Foundation

variable {U σ ι X L α : Type} {S : ConcreteSize}

/-! ## Pools -/

section Pool

variable {A : Accounting σ ι} {ids : L → Multiset ι} {own : α → Multiset ι} {m : Multiset ι}

/-- An entry and the rest of the pool. -/
theorem total_eraseIdx {pool : List L} {i : Nat} {l : L} (h : pool[i]? = some l) :
    total ids pool = ids l + total ids (pool.eraseIdx i) := by
  obtain ⟨hi, rfl⟩ := List.getElem?_eq_some_iff.mp h
  rw [← total_cons]
  exact ((List.getElem_cons_eraseIdx_perm hi).symm.map ids).sum_eq

theorem total_set_entry {pool : List L} {i : Nat} {l : L} (h : pool[i]? = some l) (l' : L) :
    total ids (pool.set i l') = ids l' + total ids (pool.eraseIdx i) := by
  obtain ⟨hi, -⟩ := List.getElem?_eq_some_iff.mp h
  have hset : (pool.set i l')[i]? = some l' := by rw [List.getElem?_set_self hi]
  rw [total_eraseIdx hset, List.eraseIdx_set_eq]

/-- What is called on an entry has to account for that entry only: the rest of the pool is
part of the frame. -/
theorem conserves_onEntry {i : Nat} {absent : α} {k : L → Exec (List L × σ) α}
    (habsent : m = own absent)
    (h : ∀ ⦃pool l frame s⦄, pool[i]? = some l →
      (A.besides (total ids)).owns (m + frame) (pool, s) →
      (A.besides (total ids)).Settles frame own (pool, s) (k l (pool, s))) :
    (A.besides (total ids)).Conserves m (onEntry i absent k) own := by
  rintro frame ⟨pool, s⟩ hown
  rw [onEntry, Exec.bind_apply, Exec.get_apply]
  dsimp only
  cases hentry : pool[i]? with
  | none => exact .ok (habsent ▸ hown) (A.later_refl s)
  | some l => exact h hentry hown

/-- What takes an iterator by value leaves the pool without it, also if it panics. -/
theorem conserves_takeEntry {i : Nat} {absent : α} {k : L → Exec σ α} (habsent : 0 = own absent)
    (h : ∀ l, A.Conserves (ids l) (k l) own) :
    (A.besides (total ids)).Conserves 0 (takeEntry i absent k) own := by
  refine conserves_onEntry habsent ?_
  intro pool l frame s hentry hown
  have howns : (A.besides (total ids)).owns (ids l + frame) (pool.eraseIdx i, s) := by
    change A.owns (total ids pool + (0 + frame)) s at hown
    change A.owns (total ids (pool.eraseIdx i) + (ids l + frame)) s
    rwa [total_eraseIdx hentry, zero_add, add_comm (ids l), add_assoc] at hown
  exact ((h l).lift howns).of_later (A.later_refl s)

/-- A clone becomes another entry of the pool. -/
theorem conserves_push {l : L} {answer : α} (h : 0 = own answer) :
    (A.besides (total ids)).Conserves (ids l) (do
      Exec.put ((← Exec.get) ++ [l])
      return answer) own := by
  rintro frame ⟨pool, s⟩ hown
  refine .ok ?_ (A.later_refl s)
  change A.owns (total ids pool + (ids l + frame)) s at hown
  change A.owns (total ids (pool ++ [l]) + (own answer + frame)) s
  rwa [total_append, total_singleton, ← h, zero_add, add_assoc]

end Pool

/-! ## Calls -/

section Calls

variable [Owning X]

instance : Owning (Method X) where
  elements
    | .replace _ x => Owning.elements x
    | _ => []

instance : Owning (Call X) where
  elements
    | .method _ m => Owning.elements m
    | _ => []

instance : Owning (Answer X) where
  elements
    | .item x => Owning.elements x
    | .replaced old => Owning.elements old
    | .absent c => Owning.elements c
    | _ => []

variable {d : Destructor U} {cloneElem : X → Exec (World U) X}

/-- One call on one iterator, case by case. -/
theorem conserves_method (m : Method X) :
    ((World.accounting U).besides (total owned)).Conserves (owned m)
      ((Deque.byValue d.dropValue cloneElem).method m) owned := by
  have hitem (x : Option X) : optionIds owned x = owned (Answer.item x) := owned_option x
  cases m with
  | next => exact Accounting.conserves_next.map hitem
  | nextBack => exact Accounting.conserves_nextBack.map hitem
  | nth n => exact (Accounting.conserves_nth d.conserves_dropValue n).map hitem
  | nthBack n => exact (Accounting.conserves_nthBack d.conserves_dropValue n).map hitem
  | sizeHint => exact fun _ _ h => .ok h ((World.accounting U).later_refl _)
  | len => exact fun _ _ h => .ok h ((World.accounting U).later_refl _)
  | asSlice => exact fun _ _ h => .ok h ((World.accounting U).later_refl _)
  | replace j x => exact (Accounting.conserves_replace j x).map fun _ => rfl

/-- One call on a pool. -/
theorem conserves_call
    (hclone : ∀ x, (World.accounting U).Conserves 0 (cloneElem x) owned) (c : Call X) :
    ((World.accounting U).besides (total (total owned))).Conserves (owned c)
      ((Deque.byValue d.dropValue cloneElem).call c) owned := by
  cases c with
  | method i m =>
      refine conserves_onEntry rfl ?_
      intro pool xs frame s hentry hown
      exact (conserves_method m).zoom_apply (total_eraseIdx hentry) (total_set_entry hentry) hown
  | clone i =>
      refine conserves_onEntry rfl ?_
      intro pool xs frame s _ hown
      -- the original stays in the pool, whatever becomes of the clone
      have hnew := Accounting.conserves_clone d.conserves_dropValue hclone xs
      refine Accounting.Conserves.bind hnew.lift ?_ hown
      intro new
      exact conserves_push rfl
  | count i =>
      exact conserves_takeEntry rfl fun xs =>
        (Accounting.conserves_count d.conserves_dropValue xs).map fun _ => rfl
  | last i =>
      exact conserves_takeEntry rfl fun xs =>
        (Accounting.conserves_last d.conserves_dropValue xs).map owned_option
  | drop i =>
      exact conserves_takeEntry rfl fun xs =>
        (Accounting.Conserves.slice d.conserves_dropValue xs).map fun _ => rfl

/-- A run in which at most one call of user code panics in each call. -/
theorem run_conserves
    (hclone : ∀ x, (World.accounting U).Conserves 0 (cloneElem x) owned)
    (calls : List (Call X)) (done : List (Answer X)) {pool : List (List X)}
    {others : Multiset Element} {w : World U}
    (h : w.Owns (total (total owned) pool + total owned calls + total owned done + others)) :
    ∃ answers pool' w',
      (Deque.byValue d.dropValue cloneElem).run World.rearm calls done (pool, w) =
        .ok answers (pool', w') ∧
      w'.Owns (total (total owned) pool' + total owned answers + others) ∧
      w.created ≤ w'.created ∧ w.dropped ≤ w'.dropped := by
  -- what the calls to come own is part of the frame of the first one
  induction calls generalizing done pool w with
  | nil => exact ⟨done, pool, w, rfl, by rwa [total_nil, add_zero] at h, le_rfl, le_rfl⟩
  | cons c calls ih =>
      have howns : ((World.accounting U).besides (total (total owned))).owns
          (owned c + (total owned calls + (total owned done + others)))
          (pool, { w with fuse := 1 }) := by
        have harmed := h.with_fuse 1
        rwa [total_cons, add_assoc, add_assoc, add_assoc] at harmed
      obtain ⟨r, ⟨pool', w'⟩, hrun, hown', hlater⟩ :=
        (conserves_call (d := d) hclone c).exists_caught howns Nat.one_lt_two
      have hanswer : r.elim 0 owned = owned (r.getD Answer.panicked) := by cases r <;> rfl
      have hnext : w'.Owns (total (total owned) pool' + total owned calls +
          total owned (done ++ [r.getD .panicked]) + others) := by
        rw [total_append, total_singleton, ← hanswer]
        change w'.Owns (total (total owned) pool' +
          (r.elim 0 owned + (total owned calls + (total owned done + others)))) at hown'
        rw [add_left_comm (r.elim 0 owned), add_left_comm (r.elim 0 owned)] at hown'
        simpa only [add_assoc] using hown'
      obtain ⟨answers, pool'', w'', hrest, hown'', hcreated, hdropped⟩ := ih _ hnext
      refine ⟨answers, pool'', w'', ?_, hown'', hlater.created_le.trans hcreated,
        hlater.dropped_le.trans hdropped⟩
      change Outcome.bind (((Deque.byValue d.dropValue cloneElem).call c).catchUnwind
        (pool, { w with fuse := 1 })) _ = _
      rw [hrun]
      exact hrest

end Calls

end ConstArray
