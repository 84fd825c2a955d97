import ConstArray.Foundation.Consume
import Mathlib.Algebra.BigOperators.Group.Multiset.Basic

/-! # Conservation of ownership

Resources are tokens. A computation that is given some tokens conserves them if it
hands over exactly the tokens of its result when it returns, and none when it
panics: it then has given all of them back to the world, that is, dropped them.
Calls of user code that fail are paid for with a budget, so that a computation with
a budget of one cannot panic twice.
-/

namespace ConstArray.Foundation

variable {σ ι α β L X Y E : Type}

section Total

variable {V W : Type*}

/-- The tokens of some values. -/
def total (ids : V → Multiset ι) (xs : List V) : Multiset ι := (xs.map ids).sum

@[simp] theorem total_nil (ids : V → Multiset ι) : total ids [] = 0 := rfl

@[simp] theorem total_cons (ids : V → Multiset ι) (x : V) (xs : List V) :
    total ids (x :: xs) = ids x + total ids xs := List.sum_cons

@[simp] theorem total_append (ids : V → Multiset ι) (xs ys : List V) :
    total ids (xs ++ ys) = total ids xs + total ids ys := by
  rw [total, List.map_append, List.sum_append, total, total]

theorem total_singleton (ids : V → Multiset ι) (x : V) : total ids [x] = ids x := by
  rw [total_cons, total_nil, add_zero]

theorem total_flatMap (ids : V → Multiset ι) (f : W → List V) (ys : List W) :
    total ids (ys.flatMap f) = total (fun y => total ids (f y)) ys := by
  induction ys with
  | nil => rfl
  | cons y ys ih => rw [List.flatMap_cons, total_append, ih, total_cons]

end Total

/-- The tokens of a result. -/
def resultIds (idsErr : E → Multiset ι) (own : α → Multiset ι) : Except E α → Multiset ι
  | .ok a => own a
  | .error e => idsErr e

/-- The tokens of an optional value. -/
def optionIds (ids : X → Multiset ι) (x : Option X) : Multiset ι := x.elim 0 ids

/-- Which tokens a world leaves to the computation that runs in it, how worlds evolve,
and how many calls may still fail. -/
structure Accounting (σ ι : Type) where
  /-- Exactly the tokens in `m` are owned outside of the world. -/
  owns (m : Multiset ι) (s : σ) : Prop
  later : σ → σ → Prop
  budget : σ → Nat
  later_refl (s : σ) : later s s
  later_trans {s t u : σ} : later s t → later t u → later s u
  budget_le {s t : σ} : later s t → budget t ≤ budget s

namespace Accounting

variable {A : Accounting σ ι} {m n : Multiset ι}

/-- A computation that started in `s` with the tokens of its caller in `frame` ends with
every token accounted for. It aborts only if two calls have failed. -/
inductive Settles (A : Accounting σ ι) (frame : Multiset ι) (own : α → Multiset ι) (s : σ) :
    Outcome σ α → Prop where
  | ok {a : α} {t : σ} (hown : A.owns (own a + frame) t) (hlater : A.later s t) :
      Settles A frame own s (.ok a t)
  | panic {t : σ} (hown : A.owns frame t) (hlater : A.later s t)
      (hbudget : A.budget t < A.budget s) : Settles A frame own s (.panic t)
  | abort (hbudget : 2 ≤ A.budget s) : Settles A frame own s .abort

/-- Given the tokens `m`, the computation hands over those of its result. -/
def Conserves (A : Accounting σ ι) (m : Multiset ι) (c : Exec σ α) (own : α → Multiset ι) :
    Prop :=
  ∀ ⦃frame s⦄, A.owns (m + frame) s → A.Settles frame own s (c s)

/-- The same tokens seen from an earlier world. -/
theorem Settles.of_later {frame : Multiset ι} {own : α → Multiset ι} {s t : σ}
    {r : Outcome σ α} (h : A.Settles frame own t r) (hlater : A.later s t) :
    A.Settles frame own s r := by
  have hbudget := A.budget_le hlater
  cases h with
  | ok hown hlater' => exact .ok hown (A.later_trans hlater hlater')
  | panic hown hlater' hlt =>
      exact .panic hown (A.later_trans hlater hlater') (Nat.lt_of_lt_of_le hlt hbudget)
  | abort htwo => exact .abort (Nat.le_trans htwo hbudget)

namespace Conserves

variable {own own' : α → Multiset ι} {c : Exec σ α}

theorem congr (h : A.Conserves m c own) (hm : m = n) (hown : ∀ a, own a = own' a) :
    A.Conserves n c own' := by
  have hfun : own = own' := funext hown
  rwa [← hm, ← hfun]

protected theorem pure {a : α} (h : m = own a) : A.Conserves m (pure a) own := by
  rintro frame s hs
  exact .ok (h ▸ hs) (A.later_refl s)

protected theorem ofOption {o : Option α} {a : α} (h : o = some a) (hm : m = own a) :
    A.Conserves m (Exec.ofOption o) own := by
  rw [h]
  exact .pure hm

protected theorem bind {k : α → Exec σ β} {own' : β → Multiset ι} (hc : A.Conserves m c own)
    (hk : ∀ a, A.Conserves (own a) (k a) own') : A.Conserves m (c >>= k) own' := by
  intro frame s h
  have hsettles := hc h
  rw [Exec.bind_apply]
  generalize c s = r at hsettles
  cases hsettles with
  | ok hown hlater => exact (hk _ hown).of_later hlater
  | panic hown hlater hbudget => exact .panic hown hlater hbudget
  | abort hbudget => exact .abort hbudget

protected theorem map {f : α → β} {own' : β → Multiset ι} (hc : A.Conserves m c own)
    (hf : ∀ a, own a = own' (f a)) : A.Conserves m (f <$> c) own' := by
  rw [map_eq_pure_bind]
  exact hc.bind fun a => .pure (hf a)

/-- A local with the tokens `n` is live across `c`. -/
protected theorem onUnwind {cleanup : Exec σ Unit} (hc : A.Conserves m c own)
    (hcleanup : A.Conserves n cleanup fun _ => 0) :
    A.Conserves (m + n) (c.onUnwind cleanup) fun a => own a + n := by
  intro frame s h
  rw [add_assoc] at h
  have hsettles := hc h
  rw [Exec.onUnwind]
  generalize c s = r at hsettles
  cases hsettles with
  | ok hown hlater => exact .ok (by rwa [add_assoc]) hlater
  | panic hown hlater hbudget =>
      -- the first panic has used up a part of the budget; a second one needs more
      have hcleaned := hcleanup hown
      dsimp only
      rw [Exec.unwind]
      rename_i t
      generalize cleanup t = r at hcleaned
      cases hcleaned with
      | ok hown' hlater' =>
          rw [zero_add] at hown'
          exact .panic hown' (A.later_trans hlater hlater')
            (Nat.lt_of_le_of_lt (A.budget_le hlater') hbudget)
      | panic _ _ hbudget' => exact .abort (Nat.lt_of_le_of_lt (Nat.succ_le_of_lt
          (Nat.lt_of_le_of_lt (Nat.zero_le _) hbudget')) hbudget)
      | abort htwo => exact .abort (Nat.le_trans htwo (Nat.le_of_lt hbudget))
  | abort hbudget => exact .abort hbudget

protected theorem andThen {d e : Dtor σ} (hd : A.Conserves m d.run fun _ => 0)
    (he : A.Conserves n e.run fun _ => 0) : A.Conserves (m + n) (d.andThen e).run fun _ => 0 :=
  (hd.onUnwind he).bind fun _ => he.congr (zero_add n).symm fun _ => rfl

protected theorem slice {drop : X → Dtor σ} {ids : X → Multiset ι}
    (h : ∀ x, A.Conserves (ids x) (drop x).run fun _ => 0) (xs : List X) :
    A.Conserves (total ids xs) (Dtor.slice drop xs).run fun _ => 0 := by
  induction xs with
  | nil => exact .pure (a := ()) rfl
  | cons x xs ih =>
      rw [total_cons]
      exact (h x).andThen ih

/-- Locals are dropped at the end of their scope, also when it panics. -/
protected theorem inScope {locals : Exec σ Unit} {dropResult : α → Exec σ Unit}
    (hc : A.Conserves m c own) (hlocals : A.Conserves n locals fun _ => 0)
    (hresult : ∀ a, A.Conserves (own a) (dropResult a) fun _ => 0) :
    A.Conserves (m + n) (c.inScope locals dropResult) own := by
  refine (hc.onUnwind hlocals).bind ?_
  intro a
  refine ((hlocals.onUnwind (hresult a)).congr (add_comm n (own a)) fun _ => rfl).bind ?_
  intro _
  exact .pure (zero_add _)

/-! ## Traversals -/

variable {drop : X → Dtor σ} {ids : X → Multiset ι}

/-- What follows a traversal of `cs` is given one value for each of them. -/
protected theorem traverse {k : List X → Exec σ β} {own' : β → Multiset ι}
    (hdrop : ∀ x, A.Conserves (ids x) (drop x).run fun _ => 0)
    {cs : List (Exec σ X)} (h : ∀ c ∈ cs, A.Conserves 0 c ids) (done : List X)
    (hk : ∀ xs, xs.length = done.length + cs.length → A.Conserves (total ids xs) (k xs) own') :
    A.Conserves (total ids done) (Exec.traverse drop cs done >>= k) own' := by
  induction cs generalizing done with
  | nil => exact hk done rfl
  | cons c cs ih =>
      have hc := (h c List.mem_cons_self).onUnwind (Conserves.slice hdrop done)
      rw [Exec.traverse, bind_assoc]
      refine (hc.congr (zero_add _) fun _ => rfl).bind ?_
      intro x
      have hrest := ih (fun d hd => h d (List.mem_cons_of_mem c hd)) (done ++ [x])
        fun xs hxs => hk xs (by simp at hxs ⊢; omega)
      refine hrest.congr ?_ fun _ => rfl
      rw [total_append, total_singleton, add_comm]

protected theorem tryTraverse {dropErr : E → Dtor σ} {idsErr : E → Multiset ι}
    {k : Except E (List X) → Exec σ β} {own' : β → Multiset ι}
    (hdrop : ∀ x, A.Conserves (ids x) (drop x).run fun _ => 0)
    (hdropErr : ∀ e, A.Conserves (idsErr e) (dropErr e).run fun _ => 0)
    {cs : List (Exec σ (Except E X))} (h : ∀ c ∈ cs, A.Conserves 0 c (resultIds idsErr ids))
    (done : List X)
    (hok : ∀ xs, xs.length = done.length + cs.length →
      A.Conserves (total ids xs) (k (.ok xs)) own')
    (herror : ∀ e, A.Conserves (idsErr e) (k (.error e)) own') :
    A.Conserves (total ids done) (Exec.tryTraverse drop dropErr cs done >>= k) own' := by
  induction cs generalizing done with
  | nil => exact hok done rfl
  | cons c cs ih =>
      have hc := (h c List.mem_cons_self).onUnwind (Conserves.slice hdrop done)
      rw [Exec.tryTraverse, bind_assoc]
      refine (hc.congr (zero_add _) fun _ => rfl).bind ?_
      intro r
      cases r with
      | ok x =>
          have hrest := ih (fun d hd => h d (List.mem_cons_of_mem c hd)) (done ++ [x])
            fun xs hxs => hok xs (by simp at hxs ⊢; omega)
          refine hrest.congr ?_ fun _ => rfl
          rw [total_append, total_singleton, add_comm]
          rfl
      | error e =>
          have hdone := (Conserves.slice hdrop done).onUnwind (hdropErr e)
          rw [bind_assoc]
          refine (hdone.congr (add_comm _ _) fun _ => rfl).bind ?_
          intro _
          exact (herror e).congr (zero_add _).symm fun _ => rfl

protected theorem mapOwned {dropY : Y → Dtor σ} {idsY : Y → Multiset ι}
    {k : List Y → Exec σ β} {own' : β → Multiset ι}
    (hdrop : ∀ x, A.Conserves (ids x) (drop x).run fun _ => 0)
    (hdropY : ∀ y, A.Conserves (idsY y) (dropY y).run fun _ => 0) {f : X → Exec σ Y}
    (hf : ∀ x, A.Conserves (ids x) (f x) idsY) (xs : List X) (done : List Y)
    (hk : ∀ ys, ys.length = xs.length + done.length →
      A.Conserves (total idsY ys) (k ys) own') :
    A.Conserves (total ids xs + total idsY done)
      (Exec.mapOwned drop dropY f xs done >>= k) own' := by
  induction xs generalizing done with
  | nil => exact (hk done (Nat.zero_add _).symm).congr (zero_add _).symm fun _ => rfl
  | cons x xs ih =>
      -- `f` owns `x` now; the results and the rest of the source are dropped if it panics
      have hx := (hf x).onUnwind ((Conserves.slice hdropY done).andThen (Conserves.slice hdrop xs))
      rw [Exec.mapOwned, bind_assoc]
      refine (hx.congr ?_ fun _ => rfl).bind fun y => ?_
      · rw [total_cons, add_assoc, add_comm (total idsY done)]
      · have hrest := ih (done ++ [y]) fun ys hys => hk ys (by simp at hys ⊢; omega)
        refine hrest.congr ?_ fun _ => rfl
        rw [total_append, total_singleton, ← add_assoc, add_comm _ (idsY y),
          add_comm (total ids xs)]

/-- With a budget of one, a call whose panic is caught returns. -/
theorem exists_caught (hc : A.Conserves m c own) {frame : Multiset ι} {s : σ}
    (h : A.owns (m + frame) s) (hbudget : A.budget s < 2) :
    ∃ r t, c.catchUnwind s = .ok r t ∧ A.owns (r.elim 0 own + frame) t ∧ A.later s t := by
  have hsettles := hc h
  rw [Exec.catchUnwind]
  generalize c s = r at hsettles
  cases hsettles with
  | @ok a t hown hlater => exact ⟨some a, t, rfl, hown, hlater⟩
  | @panic t hown hlater => exact ⟨none, t, rfl, by rwa [Option.elim, zero_add], hlater⟩
  | abort htwo => exact absurd hbudget (Nat.not_lt.mpr htwo)

end Conserves

/-! ## Locals -/

/-- The accounting next to a local that owns tokens. -/
def besides (A : Accounting σ ι) (ids : L → Multiset ι) : Accounting (L × σ) ι where
  owns m s := A.owns (ids s.1 + m) s.2
  later s t := A.later s.2 t.2
  budget s := A.budget s.2
  later_refl s := A.later_refl s.2
  later_trans := A.later_trans
  budget_le := A.budget_le

variable {ids : L → Multiset ι} {own : α → Multiset ι}

/-- A computation that does not touch the local. -/
theorem Conserves.lift {c : Exec σ α} (hc : A.Conserves m c own) :
    (A.besides ids).Conserves m c.lift own := by
  rintro frame ⟨l, s⟩ h
  change A.owns (ids l + (m + frame)) s at h
  have hsettles := hc (by rwa [add_left_comm] at h : A.owns (m + (ids l + frame)) s)
  rw [Exec.lift]
  generalize c s = r at hsettles
  cases hsettles with
  | ok hown hlater => exact .ok (by rwa [add_left_comm] at hown) hlater
  | panic hown hlater hbudget => exact .panic hown hlater hbudget
  | abort hbudget => exact .abort hbudget

/-- A computation on a part of a local that owns the rest itself. -/
theorem Conserves.zoom_apply {M : Type} {idsM : M → Multiset ι} {view : M → L}
    {update : M → L → M} {c : Exec (L × σ) α} (hc : (A.besides ids).Conserves m c own)
    {frame rest : Multiset ι} {l : M} {s : σ} (hview : idsM l = ids (view l) + rest)
    (hupdate : ∀ l', idsM (update l l') = ids l' + rest)
    (h : (A.besides idsM).owns (m + frame) (l, s)) :
    (A.besides idsM).Settles frame own (l, s) (c.zoom view update (l, s)) := by
  -- while `c` runs, the rest of the local is part of the frame
  have hmove (n : Multiset ι) (l' : L) :
      ids l' + rest + (n + frame) = ids l' + (n + (rest + frame)) := by
    rw [add_assoc, add_left_comm rest]
  change A.owns (idsM l + (m + frame)) s at h
  rw [hview, hmove] at h
  have howns : (A.besides ids).owns (m + (rest + frame)) (view l, s) := h
  have hsettles := hc howns
  rw [Exec.zoom]
  dsimp only
  generalize c (view l, s) = r at hsettles
  cases hsettles with
  | @ok a t hown hlater =>
      refine .ok ?_ hlater
      change A.owns (idsM (update l t.1) + (own a + frame)) t.2
      rw [hupdate, hmove]
      exact hown
  | @panic t hown hlater hbudget =>
      refine .panic ?_ hlater hbudget
      change A.owns (idsM (update l t.1) + frame) t.2
      rw [hupdate, add_assoc]
      exact hown
  | abort hbudget => exact .abort hbudget

/-! ## Queues -/

section Queues

variable {drop : X → Dtor σ} {ids : X → Multiset ι}

theorem conserves_next : (A.besides (total ids)).Conserves 0 Deque.next (optionIds ids) := by
  rintro frame ⟨xs, s⟩ h
  refine .ok ?_ (A.later_refl s)
  change A.owns (total ids xs + (0 + frame)) s at h
  change A.owns (total ids xs.tail + (optionIds ids xs.head? + frame)) s
  cases xs with
  | nil => exact h
  | cons x xs => rwa [total_cons, zero_add, add_comm (ids x), add_assoc] at h

theorem conserves_nextBack :
    (A.besides (total ids)).Conserves 0 Deque.nextBack (optionIds ids) := by
  rintro frame ⟨xs, s⟩ h
  refine .ok ?_ (A.later_refl s)
  change A.owns (total ids xs + (0 + frame)) s at h
  change A.owns (total ids xs.dropLast + (optionIds ids xs.getLast? + frame)) s
  rcases xs.eq_nil_or_concat' with rfl | ⟨xs, x, rfl⟩
  · exact h
  · rw [total_append, total_singleton, zero_add, add_assoc] at h
    rwa [List.dropLast_concat, List.getLast?_concat]

/-- The tokens of a queue whose entry `j` is replaced. -/
theorem total_set (xs : List X) {j : Nat} (hj : j < xs.length) (x : X) :
    total ids (xs.set j x) + ids xs[j] = total ids xs + ids x := by
  induction xs generalizing j with
  | nil => exact absurd hj (Nat.not_lt_zero j)
  | cons y xs ih =>
      cases j with
      | zero =>
          rw [List.set_cons_zero, total_cons, List.getElem_cons_zero, total_cons,
            add_comm (ids x), add_right_comm, add_comm (total ids xs)]
      | succ j =>
          rw [List.set_cons_succ, total_cons, List.getElem_cons_succ, add_assoc,
            ih (Nat.lt_of_succ_lt_succ hj), total_cons, add_assoc]

theorem conserves_replace (j : Nat) (x : X) :
    (A.besides (total ids)).Conserves (ids x) (Deque.replace j x) ids := by
  rintro frame ⟨xs, s⟩ h
  rcases Nat.lt_or_ge j xs.length with hj | hj
  · have hreplace : Deque.replace j x (xs, s) = .ok xs[j] (xs.set j x, s) := by
      rw [Deque.replace, Exec.bind_apply, Exec.get_apply]
      dsimp only
      rw [List.getElem?_eq_getElem hj]
      rfl
    rw [hreplace]
    refine .ok ?_ (A.later_refl s)
    change A.owns (total ids xs + (ids x + frame)) s at h
    change A.owns (total ids (xs.set j x) + (ids xs[j] + frame)) s
    rwa [← add_assoc, total_set xs hj, add_assoc]
  · have hreplace : Deque.replace j x (xs, s) = .ok x (xs, s) := by
      rw [Deque.replace, Exec.bind_apply, Exec.get_apply]
      dsimp only
      rw [List.getElem?_eq_none hj]
      rfl
    rw [hreplace]
    exact .ok h (A.later_refl s)

variable (hdrop : ∀ x, A.Conserves (ids x) (drop x).run fun _ => 0)

include hdrop

theorem conserves_nth (n : Nat) :
    (A.besides (total ids)).Conserves 0 (Deque.nth drop n) (optionIds ids) := by
  rintro frame ⟨xs, s⟩ h
  have hskip : (A.besides (total ids)).Conserves _ _ _ :=
    (Conserves.slice hdrop (xs.take n)).lift
  have howns : (A.besides (total ids)).owns (total ids (xs.take n) + frame) (xs.drop n, s) := by
    change A.owns (total ids xs + (0 + frame)) s at h
    change A.owns (total ids (xs.drop n) + (total ids (xs.take n) + frame)) s
    rwa [← add_assoc, add_comm (total ids (xs.drop n)), ← total_append, List.take_append_drop,
      ← zero_add frame]
  rw [Deque.nth_apply]
  exact (hskip.bind (fun _ => conserves_next) howns).of_later (A.later_refl s)

theorem conserves_nthBack (n : Nat) :
    (A.besides (total ids)).Conserves 0 (Deque.nthBack drop n) (optionIds ids) := by
  rintro frame ⟨xs, s⟩ h
  have hskip : (A.besides (total ids)).Conserves _ _ _ :=
    (Conserves.slice hdrop (xs.drop (xs.length - n))).lift
  have howns : (A.besides (total ids)).owns (total ids (xs.drop (xs.length - n)) + frame)
      (xs.take (xs.length - n), s) := by
    change A.owns (total ids xs + (0 + frame)) s at h
    change A.owns (total ids (xs.take _) + (total ids (xs.drop _) + frame)) s
    rwa [← add_assoc, ← total_append, List.take_append_drop, ← zero_add frame]
  rw [Deque.nthBack_apply]
  exact (hskip.bind (fun _ => conserves_nextBack) howns).of_later (A.later_refl s)

theorem conserves_clone {cloneElem : X → Exec σ X} (hclone : ∀ x, A.Conserves 0 (cloneElem x) ids)
    (xs : List X) : A.Conserves 0 (Deque.clone drop cloneElem xs) (total ids) := by
  rw [← bind_pure (Deque.clone drop cloneElem xs)]
  have hcalls : ∀ c ∈ xs.map cloneElem, A.Conserves 0 c ids :=
    List.forall_mem_map.mpr fun x _ => hclone x
  exact Conserves.traverse hdrop hcalls [] fun _ _ => .pure rfl

theorem conserves_count (xs : List X) :
    A.Conserves (total ids xs) (Deque.count drop xs) fun _ => 0 :=
  (Conserves.slice hdrop xs).bind fun _ => .pure rfl

theorem conserves_last (xs : List X) :
    A.Conserves (total ids xs) (Deque.last drop xs) (optionIds ids) := by
  have hoption (x : Option X) :
      A.Conserves (optionIds ids x) (Dtor.option drop x).run fun _ => 0 := by
    cases x with
    | none => exact .pure (a := ()) rfl
    | some x => exact (Conserves.slice hdrop [x]).congr (total_singleton ids x) fun _ => rfl
  have hsplit : total ids xs.dropLast + optionIds ids xs.getLast? = total ids xs := by
    rcases xs.eq_nil_or_concat' with rfl | ⟨xs, x, rfl⟩
    · rfl
    · rw [List.dropLast_concat, List.getLast?_concat, total_append, total_singleton]
      rfl
  have hrest := (Conserves.slice hdrop xs.dropLast).onUnwind (hoption xs.getLast?)
  exact (hrest.congr hsplit fun _ => rfl).bind fun _ => .pure (zero_add _)

end Queues

end Accounting

end ConstArray.Foundation
