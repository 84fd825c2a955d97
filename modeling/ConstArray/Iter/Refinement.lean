import ConstArray.Iter.Conserve

/-! # The by-value iterator is a double-ended queue

In every run, also one in which destructors and clones panic, `IntoIter` gives the
answers of the list of its remaining elements, holds exactly these elements in its
storage, and each element is yielded, dropped or remaining.
-/

namespace ConstArray

open Foundation

variable {σ X α : Type} {S : ConcreteSize} {w : Nat} {overflowChecks : Bool}

namespace IntoIter

variable {it : IntoIter X S} {xs : List X}

/-! ## Exhausted iterators -/

/-- An empty queue stays empty, and yields nothing. -/
theorem method_nil (dropElem : X → Dtor σ) (cloneElem : X → Exec σ X) (m : Method X) (s : σ) :
    ∃ answer, (Deque.byValue dropElem cloneElem).method m ([], s) = .ok answer ([], s) ∧
      ∀ x, answer ≠ .item (some x) := by
  cases m with
  | next => exact ⟨.item none, rfl, nofun⟩
  | nextBack => exact ⟨.item none, rfl, nofun⟩
  | nth n =>
      have hnth : Deque.nth dropElem n ([], s) = .ok none ([], s) := by
        rw [Deque.nth_apply, List.take_nil, List.drop_nil]
        rfl
      refine ⟨.item none, ?_, nofun⟩
      change (Answer.item <$> Deque.nth dropElem n) ([], s) = _
      rw [Exec.map_apply, hnth]
  | nthBack n =>
      have hnth : Deque.nthBack dropElem n ([], s) = .ok none ([], s) := by
        rw [Deque.nthBack_apply, List.drop_nil, List.take_nil]
        rfl
      refine ⟨.item none, ?_, nofun⟩
      change (Answer.item <$> Deque.nthBack dropElem n) ([], s) = _
      rw [Exec.map_apply, hnth]
  | sizeHint => exact ⟨.bounds 0 (some 0), rfl, nofun⟩
  | len => exact ⟨.len 0, rfl, nofun⟩
  | asSlice => exact ⟨.slice [], rfl, nofun⟩
  | replace j x => exact ⟨.replaced x, rfl, nofun⟩

theorem Holds.method_exhausted (h : it.Holds []) (hS : S.Evaluates w) (leak : Exec σ Unit)
    (dropElem : X → Dtor σ) (cloneElem : X → Exec σ X) (m : Method X) (s : σ) :
    ∃ answer it', (byValue w overflowChecks leak dropElem cloneElem).method m (it, s) =
      .ok answer (it', s) ∧ it'.Holds [] ∧ ∀ x, answer ≠ .item (some x) := by
  obtain ⟨answer, hqueue, hne⟩ := method_nil dropElem cloneElem m s
  have hrefines := (byValue_refines hS overflowChecks leak dropElem cloneElem).method m
  obtain ⟨it', hmethod, h'⟩ := hrefines.exists_ok h hqueue
  exact ⟨answer, it', hmethod, h', hne⟩

/-! ## Overridden methods -/

/-- The programs have the same result, drop the same elements and leave the same ones. -/
def Agree (it : IntoIter X S) (c d : Exec (IntoIter X S × List X) α) : Prop :=
  ∃ a it₁ it₂ xs dropped₁ dropped₂, c (it, []) = .ok a (it₁, dropped₁) ∧
    d (it, []) = .ok a (it₂, dropped₂) ∧ it₁.Holds xs ∧ it₂.Holds xs ∧
    dropped₁.Perm dropped₂

/-- The same for a method that takes the iterator by value, and one that exhausts it. -/
def AgreeOwned (it : IntoIter X S) (c : Exec (List X) α)
    (d : Exec (IntoIter X S × List X) (Option α)) : Prop :=
  ∃ a it' dropped, c [] = .ok a dropped ∧ d (it, []) = .ok (some a) (it', dropped) ∧
    it'.Holds []

theorem Holds.agree (h : it.Holds xs) {c d : Exec (IntoIter X S × List X) α}
    {c' d' : Exec (List X × List X) α} (hc : Exec.Refines (Simulates _ X S) Eq c c')
    (hd : Exec.Refines (Simulates _ X S) Eq d d') {a : α} {ys dropped₁ dropped₂ : List X}
    (hc' : c' (xs, []) = .ok a (ys, dropped₁)) (hd' : d' (xs, []) = .ok a (ys, dropped₂))
    (hdropped : dropped₁.Perm dropped₂) : it.Agree c d := by
  obtain ⟨it₁, hc, h₁⟩ := hc.exists_ok h hc'
  obtain ⟨it₂, hd, h₂⟩ := hd.exists_ok h hd'
  exact ⟨a, it₁, it₂, ys, dropped₁, dropped₂, hc, hd, h₁, h₂, hdropped⟩

theorem Holds.nth_agree (h : it.Holds xs) (hS : S.Evaluates w) (leak : Exec (List X) Unit)
    (n : Nat) :
    it.Agree (nth w overflowChecks leak Deque.traced n)
      (Deque.nthByNext next Deque.traced n) :=
  h.agree (nth_refines hS leak _ n) (Deque.nthByNext_refines next_refines _ n)
    (Deque.nth_traced n xs []) (Deque.nthByNext_traced n xs []) (.refl _)

/-- One by one, the elements are dropped in the opposite order. -/
theorem Holds.nthBack_agree (h : it.Holds xs) (leak : Exec (List X) Unit) (n : Nat) :
    it.Agree (nthBack w overflowChecks leak Deque.traced n)
      (Deque.nthByNext nextBack Deque.traced n) :=
  h.agree (nthBack_refines leak _ n) (Deque.nthByNext_refines nextBack_refines _ n)
    (Deque.nthBack_traced n xs []) (Deque.nthByNextBack_traced n xs [])
    (List.reverse_perm _).symm

theorem Holds.agreeOwned (h : it.Holds xs) {c : Exec (List X) α}
    {d : Exec (IntoIter X S × List X) (Option α)} {d' : Exec (List X × List X) (Option α)}
    (hd : Exec.Refines (Simulates _ X S) Eq d d') {a : α} {dropped : List X}
    (hc : c [] = .ok a dropped) (hd' : d' (xs, []) = .ok (some a) ([], dropped)) :
    it.AgreeOwned c d := by
  obtain ⟨it', hd, h'⟩ := hd.exists_ok h hd'
  exact ⟨a, it', dropped, hc, hd, h'⟩

theorem Holds.count_agree (h : it.Holds xs) (leak : Exec (List X) Unit) {fuel : Nat}
    (hfuel : it.aliveLen < fuel) :
    it.AgreeOwned (count leak Deque.traced it) (Deque.countByNext next Deque.traced fuel) := by
  rw [h.count_eq]
  exact h.agreeOwned (Deque.countByNext_refines next_refines _ fuel) (Deque.count_traced xs [])
    (Deque.countByNext_traced xs [] (h.length_eq ▸ hfuel))

theorem Holds.last_agree (h : it.Holds xs) (leak : Exec (List X) Unit) {fuel : Nat}
    (hfuel : it.aliveLen < fuel) :
    it.AgreeOwned (last leak Deque.traced it)
      (Deque.lastByNext next Deque.traced fuel none) := by
  rw [h.last_eq]
  exact h.agreeOwned (Deque.lastByNext_refines next_refines _ fuel none)
    (Deque.last_traced xs []) (Deque.lastByNext_traced xs [] none (h.length_eq ▸ hfuel))

/-! ## Runs -/

section Runs

variable {U : Type} [Owning X]

/-- The elements of an iterator are yielded, dropped or remaining, once each. -/
theorem Holds.run_conserves (h : it.Holds xs) (hS : S.Evaluates w) (leak : Exec (World U) Unit)
    (d : Destructor U) {cloneElem : X → Exec (World U) X}
    (hclone : ∀ x, (World.accounting U).Conserves 0 (cloneElem x) owned)
    (calls : List (Call X)) {others : Multiset Element} {s : World U}
    (hown : s.Owns (total owned xs + total owned calls + others)) :
    ∃ answers its xss t,
      (byValue w overflowChecks leak d.dropValue cloneElem).run World.rearm calls [] ([it], s) =
        .ok answers (its, t) ∧
      List.Forall₂ Holds its xss ∧ t.Owns (total (total owned) xss + total owned answers + others) ∧
      s.created ≤ t.created ∧ s.dropped ≤ t.dropped := by
  have hpool : s.Owns (total (total owned) [xs] + total owned calls +
      total owned ([] : List (Answer X)) + others) := by
    rwa [total_singleton, total_nil, add_zero]
  obtain ⟨answers, xss, t, hrun, hown', hlater⟩ :=
    ConstArray.run_conserves (d := d) hclone calls [] hpool
  obtain ⟨its, hits, hholds⟩ :=
    ((byValue_refines hS overflowChecks leak d.dropValue cloneElem).run World.rearm calls
      []).exists_ok (.cons h .nil) hrun
  exact ⟨answers, its, xss, t, hits, hholds, hown', hlater⟩

end Runs

/-- `IntoIter` is the double-ended queue of the elements of the array. In every run it has
the outcome and gives the answers of the list of remaining elements, and exactly the slots
of these elements, which are a subrange of the storage, are initialized; the branch of
`drop_range` that leaks is not taken, and no index overflows. The overridden methods agree
with the provided ones, and an exhausted iterator stays so. If at most one destructor or
`clone` panics in each call, then no run aborts, and each element is in one place. -/
theorem refines_double_ended_queue (hS : S.Evaluates w) (overflowChecks : Bool)
    (a : Array X S) :
    (∃ it, a.intoIter = some it ∧ it.Holds a.flat ∧
      (∀ {σ : Type} (leak : Exec σ Unit) (dropElem : X → Dtor σ) (cloneElem : X → Exec σ X)
        (between : Exec σ Unit) (calls : List (Call X)) (s : σ),
        Outcome.Rel (Exec.Local (List.Forall₂ Holds)) Eq
          ((byValue w overflowChecks leak dropElem cloneElem).run between calls [] ([it], s))
          ((Deque.byValue dropElem cloneElem).run between calls [] ([a.flat], s))) ∧
      (∀ {U : Type} [Owning X] (leak : Exec (World U) Unit) (d : Destructor U)
        (cloneElem : X → Exec (World U) X) (calls : List (Call X)) (others : Multiset Element)
        (s : World U), (∀ x, (World.accounting U).Conserves 0 (cloneElem x) owned) →
        s.Owns (owned a + total owned calls + others) →
        ∃ answers its xss t,
          (byValue w overflowChecks leak d.dropValue cloneElem).run World.rearm calls []
            ([it], s) = .ok answers (its, t) ∧
          List.Forall₂ Holds its xss ∧
          t.Owns (total (total owned) xss + total owned answers + others) ∧
          s.created ≤ t.created ∧ s.dropped ≤ t.dropped)) ∧
    ∀ (it : IntoIter X S) (xs : List X), it.Holds xs →
      (∀ (leak : Exec (List X) Unit) (n fuel : Nat), it.aliveLen < fuel →
        it.Agree (nth w overflowChecks leak Deque.traced n)
          (Deque.nthByNext next Deque.traced n) ∧
        it.Agree (nthBack w overflowChecks leak Deque.traced n)
          (Deque.nthByNext nextBack Deque.traced n) ∧
        it.AgreeOwned (count leak Deque.traced it)
          (Deque.countByNext next Deque.traced fuel) ∧
        it.AgreeOwned (last leak Deque.traced it)
          (Deque.lastByNext next Deque.traced fuel none)) ∧
      (xs = [] → ∀ {σ : Type} (leak : Exec σ Unit) (dropElem : X → Dtor σ)
        (cloneElem : X → Exec σ X) (m : Method X) (s : σ), ∃ answer it',
          (byValue w overflowChecks leak dropElem cloneElem).method m (it, s) =
            .ok answer (it', s) ∧ it'.Holds [] ∧ ∀ x, answer ≠ .item (some x)) := by
  constructor
  · obtain ⟨it, hit, h⟩ := exists_intoIter a
    refine ⟨it, hit, h, fun leak dropElem cloneElem between calls s => ?_, ?_⟩
    · have hrefines := byValue_refines hS overflowChecks leak dropElem cloneElem
      exact hrefines.run between calls [] ⟨.cons h .nil, rfl⟩
    · intro U _ leak d cloneElem calls others s hclone hown
      rw [owned_array] at hown
      exact h.run_conserves hS leak d hclone calls hown
  · intro it xs h
    refine ⟨fun leak n fuel hfuel => ?_, fun hxs => ?_⟩
    · exact ⟨h.nth_agree hS leak n, h.nthBack_agree leak n, h.count_agree leak hfuel,
        h.last_agree leak hfuel⟩
    · exact (hxs ▸ h).method_exhausted hS

def threeElements : Array Element (.len 3) := ⟨⟨[⟨1⟩, ⟨2⟩, ⟨3⟩], rfl⟩⟩

/-- Two of three elements are skipped while a destructor panics, and the last one is
cloned. -/
theorem refines_double_ended_queue_skip : ∃ it, threeElements.intoIter = some it ∧
    ∃ answers its xss t,
      (byValue 64 true Exec.ub Destructor.mayPanic.dropValue fun _ => World.create).run
        World.rearm [.method 0 (.nth 2), .clone 0, .drop 1] []
        ([it], ⟨owned threeElements, 0, 0, 0, ()⟩) = .ok answers (its, t) ∧
      List.Forall₂ Holds its xss ∧ t.Owns (total (total owned) xss + total owned answers + 0) ∧
      owned threeElements ≤ t.created ∧ 0 ≤ t.dropped := by
  have hS : Size.Evaluates 64 (.len 3) := by decide
  obtain ⟨it, hit, -, -, hrun⟩ := (refines_double_ended_queue hS true threeElements).1
  refine ⟨it, hit, hrun Exec.ub Destructor.mayPanic _ _ 0 _ (fun _ => World.conserves_create) ?_⟩
  exact ⟨rfl, by decide⟩

end IntoIter

end ConstArray
