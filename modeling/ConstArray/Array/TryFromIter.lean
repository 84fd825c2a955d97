import ConstArray.Array.Consume
import ConstArray.Foundation.Generator

/-! # Arrays from iterators

`try_from_iter` calls the iterator for one value more than the array holds, unless
it ends before. The iterator is any state machine: it may be infinite, go on after
it has ended, or panic.
-/

namespace ConstArray

open Foundation

variable {σ X : Type} {S : ConcreteSize} {drop : X → Dtor σ} {next : Exec σ (Option X)}
  {dropIter : Exec σ Unit}

namespace Array

/-- Drop the result when the iterator's destructor panics. -/
def dropBuilt (drop : X → Dtor σ) : Except TryFromIterError (Array X S) → Exec σ Unit
  | .ok array => (array.drop drop).run
  | .error _ => pure ()

/-- What `try_from_iter` does with the array: one more call. -/
def probe (drop : X → Dtor σ) (next : Exec σ (Option X)) :
    Except TryFromIterError (Array X S) → Exec σ (Except TryFromIterError (Array X S))
  | .error e => return .error e
  | .ok array => do
      match ← next.onUnwind (array.drop drop).run with
      | some surplus => do
          ((drop surplus).andThen (array.drop drop)).run
          return .error ⟨⟩
      | none => return .ok array

/-- `try_from_iter` up to the iterator's destructor. -/
def pullAll (drop : X → Dtor σ) (S : ConcreteSize) (next : Exec σ (Option X)) :
    Exec σ (Except TryFromIterError (Array X S)) :=
  tryFromFn drop (fun _ => Dtor.noop) S (fun _ => Exec.okOr ⟨⟩ next) >>= probe drop next

theorem tryFromIter_eq (drop : X → Dtor σ) (next : Exec σ (Option X)) (dropIter : Exec σ Unit) :
    tryFromIter drop S next dropIter =
      Exec.inScope (pullAll drop S next) dropIter (dropBuilt drop) := rfl

/-- Drop the values that were pulled, and fail. -/
def reject (drop : X → Dtor σ) (S : ConcreteSize) (items : List X) :
    Exec σ (Except TryFromIterError (Array X S)) := do
  (Dtor.slice drop items).run
  return .error ⟨⟩

/-- Drop the values that were pulled and the iterator, and fail. -/
def rejected (drop : X → Dtor σ) (dropIter : Exec σ Unit) (S : ConcreteSize) (items : List X) :
    Exec σ (Except TryFromIterError (Array X S)) :=
  Exec.inScope (reject drop S items) dropIter fun _ => pure ()

theorem probe_ok (a : Array X S) :
    probe drop next (.ok a) = (next.onUnwind (Dtor.slice drop a.flat).run >>= fun r =>
      r.elim (pure (.ok a)) fun x => reject drop S (x :: a.flat)) := by
  rw [probe, drop_eq]
  refine congrArg _ ?_
  funext r
  cases r <;> rfl

/-- The call after those that returned `xs`: these are live during the call, and its
result decides how to go on. -/
theorem pullAll_call (drop : X → Dtor σ) {xs : List X} {s s' : σ} (h : Exec.Yields next xs s s')
    (hle : xs.length ≤ S.count) :
    ∃ onNone onSome, pullAll drop S next s =
        (next.onUnwind (Dtor.slice drop xs).run >>= fun r => r.elim onNone onSome) s' ∧
      (xs.length < S.count → onNone = reject drop S xs) ∧
      ∀ a : Array X S, a.flat = xs →
        onNone = pure (.ok a) ∧ onSome = fun x => reject drop S (x :: xs) := by
  obtain ⟨n, hn⟩ := Nat.exists_eq_add_of_le hle
  have hcalls := Exec.tryTraverse_yields drop (fun _ => Dtor.noop) (⟨⟩ : TryFromIterError) h n []
  have hpull : pullAll drop S next s =
      (Exec.tryTraverse drop (fun _ => Dtor.noop) (.replicate n (Exec.okOr ⟨⟩ next)) xs >>=
        fun r => collect S r >>= probe drop next) s' := by
    rw [pullAll, tryFromFn_eq, List.map_const', List.length_range, bind_assoc, hn]
    exact Exec.bind_apply_congr hcalls _
  cases n with
  | zero =>
      obtain ⟨a, hof, hflat⟩ := exists_ofFlat (S := S) (l := xs) hn.symm
      refine ⟨pure (.ok a), fun x => reject drop S (x :: xs), ?_, fun hlt => by omega, ?_⟩
      · have hcollect : (collect S (.ok xs) : Exec σ (Except TryFromIterError _)) =
            pure (.ok a) := by
          rw [collect, hof]
          rfl
        rw [hpull, List.replicate_zero, Exec.tryTraverse, pure_bind, hcollect, pure_bind,
          probe_ok, hflat]
      · intro b hb
        obtain rfl : a = b := Option.some.inj (hof.symm.trans (ofFlat_eq_some.mpr hb))
        exact ⟨rfl, rfl⟩
  | succ n =>
      refine ⟨reject drop S xs, fun x =>
        Exec.tryTraverse drop (fun _ => Dtor.noop) (.replicate n (Exec.okOr ⟨⟩ next))
          (xs ++ [x]) >>= fun r => collect S r >>= probe drop next, ?_, fun _ => rfl, ?_⟩
      · rw [hpull, List.replicate_succ, Exec.tryTraverse, bind_assoc, Exec.okOr_onUnwind_bind]
        refine congrFun (congrArg _ (funext fun r => ?_)) s'
        cases r with
        | some x => rfl
        | none =>
            change ((do
              (Dtor.slice drop xs).run.onUnwind (pure ())
              return .error ⟨⟩ : Exec σ _) >>= fun r => collect S r >>= probe drop next) = _
            rw [Exec.onUnwind_noop, bind_assoc]
            rfl
      · intro b hb
        have hlength := b.length_flat
        rw [hb] at hlength
        omega

/-! ## Iterators that do the same -/

section Refinement

variable {τ : Type} {R : σ → τ → Prop} {drop' : X → Dtor τ} {next' : Exec τ (Option X)}
  {dropIter' : Exec τ Unit}

theorem drop_refines (hdrop : ∀ x, Exec.Refines R Eq (drop x).run (drop' x).run)
    (a : Array X S) : Exec.Refines R Eq (a.drop drop).run (a.drop drop').run := by
  rw [drop_eq, drop_eq]
  exact .slice hdrop a.flat

theorem dropBuilt_refines (hdrop : ∀ x, Exec.Refines R Eq (drop x).run (drop' x).run)
    (r : Except TryFromIterError (Array X S)) :
    Exec.Refines R Eq (dropBuilt drop r) (dropBuilt drop' r) := by
  cases r with
  | ok a => exact drop_refines hdrop a
  | error e => exact .pure rfl

theorem probe_refines (hdrop : ∀ x, Exec.Refines R Eq (drop x).run (drop' x).run)
    (hnext : Exec.Refines R Eq next next') (r : Except TryFromIterError (Array X S)) :
    Exec.Refines R Eq (probe drop next r) (probe drop' next' r) := by
  cases r with
  | error e => exact .pure rfl
  | ok a =>
      have harray := drop_refines hdrop a
      refine (hnext.onUnwind harray).bind_same ?_
      intro x
      cases x with
      | none => exact .pure rfl
      | some x =>
          have hboth := ((hdrop x).onUnwind harray).bind_same fun _ => harray
          exact hboth.bind_same fun _ => .pure rfl

/-- Iterators and destructors that do the same give the same result. -/
theorem tryFromIter_refines (hdrop : ∀ x, Exec.Refines R Eq (drop x).run (drop' x).run)
    (hnext : Exec.Refines R Eq next next') (hdropIter : Exec.Refines R Eq dropIter dropIter') :
    Exec.Refines R Eq (tryFromIter drop S next dropIter) (tryFromIter drop' S next' dropIter') := by
  have hnoop (_ : TryFromIterError) :
      Exec.Refines R Eq (Dtor.noop : Dtor σ).run (Dtor.noop : Dtor τ).run := .pure rfl
  have hcalls := tryFromFn_refines (S := S) hdrop hnoop fun _ => hnext.okOr ⟨⟩
  rw [tryFromIter_eq, tryFromIter_eq, pullAll, pullAll]
  refine .inScope (hcalls.bind_same ?_) hdropIter ?_
  · exact probe_refines hdrop hnext
  · rintro r _ rfl
    exact dropBuilt_refines hdrop r

end Refinement

end Array

/-! ## Counting calls and items -/

/-- The calls of an iterator, the items it returned, and those that were dropped. -/
structure IterLog (X : Type) where
  calls : Nat
  pulled : List X
  dropped : List X

def IterLog.start : IterLog X := ⟨0, [], []⟩

/-- Calls of `next` that are logged next to the world. -/
def loggedNext (next : Exec σ (Option X)) : Exec (IterLog X × σ) (Option X) := fun s =>
  match next s.2 with
  | .ok x s' =>
      .ok x (⟨s.1.calls + 1, s.1.pulled ++ x.toList, s.1.dropped⟩, s')
  | .panic s' => .panic (⟨s.1.calls + 1, s.1.pulled, s.1.dropped⟩, s')
  | .abort => .abort
  | .ub => .ub

/-- A destructor whose calls are logged. -/
def loggedDrop (drop : X → Dtor σ) (x : X) : Dtor (IterLog X × σ) where
  run s := (drop x).run.lift (⟨s.1.calls, s.1.pulled, s.1.dropped ++ [x]⟩, s.2)
  ne_ub _ := (drop x).lift.ne_ub _

theorem yields_loggedNext {xs : List X} {s s' : σ} (h : Exec.Yields next xs s s')
    (log : IterLog X) :
    Exec.Yields (loggedNext next) xs (log, s)
      (⟨log.calls + xs.length, log.pulled ++ xs, log.dropped⟩, s') := by
  induction h generalizing log with
  | nil =>
      rw [List.length_nil, Nat.add_zero, List.append_nil]
      exact .nil _
  | @cons x xs s s' s'' hx _ ih =>
      have hcall : loggedNext next (log, s) =
          .ok (some x) (⟨log.calls + 1, log.pulled ++ [x], log.dropped⟩, s') := by
        unfold loggedNext
        rw [hx]
        rfl
      have hrest := ih ⟨log.calls + 1, log.pulled ++ [x], log.dropped⟩
      rw [List.append_assoc, List.singleton_append, Nat.add_assoc, Nat.add_comm 1] at hrest
      exact .cons hcall hrest

theorem yields_loggedNext_start {xs : List X} {s s' : σ} (h : Exec.Yields next xs s s') :
    Exec.Yields (loggedNext next) xs (.start, s) (⟨xs.length, xs, []⟩, s') := by
  have hlog := yields_loggedNext h .start
  rwa [IterLog.start, Nat.zero_add, List.nil_append] at hlog

/-- All destructors of a slice are called, unless the process aborts. -/
theorem slice_loggedDrop (xs : List X) (log : IterLog X) (s : σ) :
    (Dtor.slice (loggedDrop drop) xs).run (log, s) =
      (Dtor.slice drop xs).run.lift (⟨log.calls, log.pulled, log.dropped ++ xs⟩, s) := by
  induction xs generalizing log s with
  | nil =>
      rw [List.append_nil]
      rfl
  | cons x xs ih =>
      have hx : (loggedDrop drop x).run (log, s) =
          (drop x).run.lift (⟨log.calls, log.pulled, log.dropped ++ [x]⟩, s) := rfl
      rw [Dtor.slice_cons, Dtor.slice_cons, Dtor.andThen_apply, hx, Exec.lift, Exec.lift,
        Dtor.andThen_apply]
      cases (drop x).run s with
      | ok u s' =>
          dsimp only
          rw [ih, List.append_assoc, List.singleton_append]
          rfl
      | panic s' =>
          dsimp only
          rw [Exec.unwind, ih, List.append_assoc, List.singleton_append, Exec.lift, Exec.unwind]
          cases (Dtor.slice drop xs).run s' <;> rfl
      | abort => rfl
      | ub => rfl

namespace Array

/-- `try_from_iter` with logged calls. -/
def loggedTryFromIter (drop : X → Dtor σ) (S : ConcreteSize) (next : Exec σ (Option X))
    (dropIter : Exec σ Unit) (s : σ) :
    Outcome (IterLog X × σ) (Except TryFromIterError (Array X S)) :=
  tryFromIter (loggedDrop drop) S (loggedNext next) dropIter.lift (.start, s)

/-- The log is only observed. -/
theorem loggedTryFromIter_refines (drop : X → Dtor σ) (next : Exec σ (Option X))
    (dropIter : Exec σ Unit) (S : ConcreteSize) (s : σ) :
    Outcome.Rel (fun t t' => t.2 = t') Eq (loggedTryFromIter drop S next dropIter s)
      (tryFromIter drop S next dropIter s) := by
  have hnext : Exec.Refines (fun (t : IterLog X × σ) t' => t.2 = t') Eq (loggedNext next) next := by
    rintro t _ rfl
    rw [loggedNext]
    cases next t.2 with
    | ok x t' => exact .ok rfl rfl
    | panic t' => exact .panic rfl
    | abort => exact .abort
    | ub => exact .ub
  refine tryFromIter_refines (fun x => ?_) hnext (.forgetLocal dropIter) rfl
  rintro t _ rfl
  exact Exec.Refines.forgetLocal (drop x).run rfl

/-- How `try_from_iter` ends. Where it fails or panics, every item that was pulled has
been dropped. -/
inductive TryFromIterEnds (drop : X → Dtor σ) (next : Exec σ (Option X))
    (dropIter : Exec σ Unit) (S : ConcreteSize) (s : σ) :
    Outcome (IterLog X × σ) (Except TryFromIterError (Array X S)) → Prop where
  | accepted {a : Array X S} {s₁ s₂ : σ} (h : Exec.Yields next a.flat s s₁)
      (hnone : next s₁ = .ok none s₂) :
      TryFromIterEnds drop next dropIter S s
        (Exec.inScope (pure (.ok a)) dropIter.lift (dropBuilt (loggedDrop drop))
          (⟨S.count + 1, a.flat, []⟩, s₂))
  | short {xs : List X} {s₁ s₂ : σ} (h : Exec.Yields next xs s s₁)
      (hlt : xs.length < S.count) (hnone : next s₁ = .ok none s₂) :
      TryFromIterEnds drop next dropIter S s
        ((rejected drop dropIter S xs).lift (⟨xs.length + 1, xs, xs⟩, s₂))
  | surplus {xs : List X} {x : X} {s₁ s₂ : σ} (h : Exec.Yields next xs s s₁)
      (hlength : xs.length = S.count) (hsome : next s₁ = .ok (some x) s₂) :
      TryFromIterEnds drop next dropIter S s
        ((rejected drop dropIter S (x :: xs)).lift (⟨S.count + 1, xs ++ [x], x :: xs⟩, s₂))
  | panicked {xs : List X} {s₁ s₂ : σ} (h : Exec.Yields next xs s s₁)
      (hle : xs.length ≤ S.count) (hpanic : next s₁ = .panic s₂) :
      TryFromIterEnds drop next dropIter S s
        ((Exec.unwind do (Dtor.slice drop xs).run; dropIter).lift
          (⟨xs.length + 1, xs, xs⟩, s₂))
  | aborted {xs : List X} {s₁ : σ} (h : Exec.Yields next xs s s₁)
      (hle : xs.length ≤ S.count) (habort : next s₁ = .abort) :
      TryFromIterEnds drop next dropIter S s .abort
  | undefined {xs : List X} {s₁ : σ} (h : Exec.Yields next xs s s₁)
      (hle : xs.length ≤ S.count) (hub : next s₁ = .ub) :
      TryFromIterEnds drop next dropIter S s .ub

theorem inScope_reject (xs : List X) (log : IterLog X) (s : σ) :
    Exec.inScope (reject (loggedDrop drop) S xs) dropIter.lift (dropBuilt (loggedDrop drop))
        (log, s) =
      (rejected drop dropIter S xs).lift (⟨log.calls, log.pulled, log.dropped ++ xs⟩, s) := by
  rw [Exec.inScope_apply, reject, Exec.bind_apply, slice_loggedDrop, Exec.lift, Exec.lift,
    rejected, Exec.inScope_apply, reject, Exec.bind_apply]
  cases (Dtor.slice drop xs).run s with
  | ok u t =>
      change (dropIter.lift.onUnwind (pure ()) >>= fun _ => pure _) (_, t) = _
      rw [Exec.onUnwind_noop]
      dsimp only [Exec.pure_apply]
      rw [Exec.onUnwind_noop, Exec.bind_apply, Exec.bind_apply, Exec.lift]
      cases dropIter t <;> rfl
  | panic t =>
      dsimp only
      rw [Exec.unwind, Exec.unwind, Exec.lift]
      cases dropIter t <;> rfl
  | abort => rfl
  | ub => rfl

theorem inScope_unwind (xs : List X) (log : IterLog X) (s : σ) :
    Exec.inScope (Exec.unwind (Dtor.slice (loggedDrop drop) xs).run) dropIter.lift
        (dropBuilt (loggedDrop drop) : Except TryFromIterError (Array X S) → _) (log, s) =
      (Exec.unwind do (Dtor.slice drop xs).run; dropIter).lift
        (⟨log.calls, log.pulled, log.dropped ++ xs⟩, s) := by
  rw [Exec.inScope_apply, Exec.unwind, slice_loggedDrop, Exec.lift, Exec.lift, Exec.unwind,
    Exec.bind_apply]
  cases (Dtor.slice drop xs).run s with
  | ok u t =>
      dsimp only
      rw [Exec.unwind, Exec.lift]
      cases dropIter t <;> rfl
  | panic t => rfl
  | abort => rfl
  | ub => rfl

/-- The call of the iterator after those that returned `xs`. -/
theorem loggedTryFromIter_call (drop : X → Dtor σ) (dropIter : Exec σ Unit) {xs : List X}
    {s s' : σ} (h : Exec.Yields next xs s s') (hle : xs.length ≤ S.count) :
    ∃ onNone onSome, loggedTryFromIter drop S next dropIter s =
        Exec.inScope ((loggedNext next).onUnwind (Dtor.slice (loggedDrop drop) xs).run >>=
            fun r => r.elim onNone onSome)
          dropIter.lift (dropBuilt (loggedDrop drop)) (⟨xs.length, xs, []⟩, s') ∧
      (xs.length < S.count → onNone = reject (loggedDrop drop) S xs) ∧
      ∀ a : Array X S, a.flat = xs →
        onNone = pure (.ok a) ∧ onSome = fun x => reject (loggedDrop drop) S (x :: xs) := by
  obtain ⟨onNone, onSome, hpull, hends⟩ :=
    pullAll_call (loggedDrop drop) (yields_loggedNext_start h) hle
  refine ⟨onNone, onSome, ?_, hends⟩
  rw [loggedTryFromIter, tryFromIter_eq]
  exact Exec.inScope_apply_congr hpull _ _

theorem loggedNext_eq_ok {r : Option X} {s s' : σ} (h : next s = .ok r s') (log : IterLog X) :
    loggedNext next (log, s) =
      .ok r (⟨log.calls + 1, log.pulled ++ r.toList, log.dropped⟩, s') := by
  rw [loggedNext, h]

theorem loggedTryFromIter_accepted {a : Array X S} {s s₁ s₂ : σ}
    (h : Exec.Yields next a.flat s s₁) (hnone : next s₁ = .ok none s₂) :
    loggedTryFromIter drop S next dropIter s =
      Exec.inScope (pure (.ok a)) dropIter.lift (dropBuilt (loggedDrop drop))
        (⟨S.count + 1, a.flat, []⟩, s₂) := by
  obtain ⟨onNone, onSome, hrun, -, hfull⟩ :=
    loggedTryFromIter_call drop dropIter h (Nat.le_of_eq a.length_flat)
  rw [hrun, Exec.inScope_apply_congr (Exec.onUnwind_bind_ok (loggedNext_eq_ok hnone _)),
    Option.elim, (hfull a rfl).1, Option.toList_none, List.append_nil, length_flat]

theorem loggedTryFromIter_short {xs : List X} {s s₁ s₂ : σ} (h : Exec.Yields next xs s s₁)
    (hlt : xs.length < S.count) (hnone : next s₁ = .ok none s₂) :
    loggedTryFromIter drop S next dropIter s =
      (rejected drop dropIter S xs).lift (⟨xs.length + 1, xs, xs⟩, s₂) := by
  obtain ⟨onNone, onSome, hrun, hshort, -⟩ :=
    loggedTryFromIter_call drop dropIter h (Nat.le_of_lt hlt)
  rw [hrun, Exec.inScope_apply_congr (Exec.onUnwind_bind_ok (loggedNext_eq_ok hnone _)),
    Option.elim, hshort hlt, inScope_reject, Option.toList_none, List.append_nil, List.nil_append]

theorem loggedTryFromIter_surplus {xs : List X} {x : X} {s s₁ s₂ : σ}
    (h : Exec.Yields next xs s s₁) (hlength : xs.length = S.count)
    (hsome : next s₁ = .ok (some x) s₂) :
    loggedTryFromIter drop S next dropIter s =
      (rejected drop dropIter S (x :: xs)).lift
        (⟨S.count + 1, xs ++ [x], x :: xs⟩, s₂) := by
  obtain ⟨a, -, ha⟩ := exists_ofFlat hlength
  obtain ⟨onNone, onSome, hrun, -, hfull⟩ :=
    loggedTryFromIter_call drop dropIter h (Nat.le_of_eq hlength)
  rw [hrun, Exec.inScope_apply_congr (Exec.onUnwind_bind_ok (loggedNext_eq_ok hsome _)),
    Option.elim, (hfull a ha).2, inScope_reject, Option.toList_some, List.nil_append, hlength]

/-- The iterator is called up to its end, and at most once more than the array has
elements. -/
theorem loggedTryFromIter_ends (drop : X → Dtor σ) (next : Exec σ (Option X))
    (dropIter : Exec σ Unit) (S : ConcreteSize) (s : σ) :
    TryFromIterEnds drop next dropIter S s (loggedTryFromIter drop S next dropIter s) := by
  obtain ⟨xs, s₁, h, hle, hlast⟩ := Exec.exists_yields next S.count s
  obtain ⟨onNone, onSome, hrun, -⟩ := loggedTryFromIter_call drop dropIter h hle
  cases hnext : next s₁ with
  | ok r s₂ =>
      rcases Nat.lt_or_eq_of_le hle with hlt | heq
      · cases r with
        | none =>
            rw [loggedTryFromIter_short h hlt hnext]
            exact .short h hlt hnext
        | some x => exact absurd hnext (hlast hlt x s₂)
      · cases r with
        | none =>
            obtain ⟨a, -, rfl⟩ := exists_ofFlat heq
            rw [loggedTryFromIter_accepted h hnext]
            exact .accepted h hnext
        | some x =>
            rw [loggedTryFromIter_surplus h heq hnext]
            exact .surplus h heq hnext
  | panic s₂ =>
      have hcall : loggedNext next (⟨xs.length, xs, []⟩, s₁) =
          .panic (⟨xs.length + 1, xs, []⟩, s₂) := by
        rw [loggedNext, hnext]
      rw [hrun, Exec.inScope_apply_congr (Exec.onUnwind_bind_panic hcall), inScope_unwind]
      exact .panicked h hle hnext
  | abort =>
      have hcall : loggedNext next (⟨xs.length, xs, []⟩, s₁) = .abort := by
        rw [loggedNext, hnext]
      rw [hrun, Exec.inScope_apply, Exec.onUnwind_bind_apply, hcall]
      exact .aborted h hle hnext
  | ub =>
      have hcall : loggedNext next (⟨xs.length, xs, []⟩, s₁) = .ub := by
        rw [loggedNext, hnext]
      rw [hrun, Exec.inScope_apply, Exec.onUnwind_bind_apply, hcall]
      exact .undefined h hle hnext

/-- What was pulled is dropped when the iterator's destructor panics. -/
theorem accepted_panic {a : Array X S} {log log' : IterLog X} {s t : σ}
    (h : Exec.inScope (pure (.ok a)) dropIter.lift (dropBuilt (loggedDrop drop)) (log, s) =
      .panic (log', t)) :
    log' = ⟨log.calls, log.pulled, log.dropped ++ a.flat⟩ := by
  rcases Exec.inScope_eq_panic.mp h with
    ⟨s', hpanic, -⟩ | ⟨r, s', ⟨log'', s''⟩, hok, hlocals, hbuilt⟩
  · cases hpanic
  · cases hok
    obtain rfl : log'' = log := (Exec.lift_eq_panic.mp hlocals).2
    rw [dropBuilt, drop_eq, slice_loggedDrop] at hbuilt
    exact (Exec.lift_eq_ok.mp hbuilt).2

/-- A rejected call returns the error once all destructors have returned. -/
theorem rejected_eq_ok {items : List X} {r : Except TryFromIterError (Array X S)} {s t : σ} :
    rejected drop dropIter S items s = .ok r t ↔ r = .error ⟨⟩ ∧
      ∃ s', (Dtor.slice drop items).run s = .ok () s' ∧ dropIter s' = .ok () t := by
  rw [rejected, Exec.inScope_eq_ok, reject]
  simp only [Exec.bind_apply]
  cases (Dtor.slice drop items).run s <;> grind [Exec.pure_apply]

/-- `try_from_iter` accepts exactly the iterators that return `S::USIZE` items and then
end. It fails at the first end that comes earlier, and for a surplus item; every item
that was pulled is then dropped. -/
theorem try_from_iter_accepts_exactly (drop : X → Dtor σ) (next : Exec σ (Option X))
    (dropIter : Exec σ Unit) (S : ConcreteSize) (s : σ) :
    Outcome.Rel (fun t t' => t.2 = t') Eq (loggedTryFromIter drop S next dropIter s)
      (tryFromIter drop S next dropIter s) ∧
    (∀ (a : Array X S) (log : IterLog X) (t : σ),
      loggedTryFromIter drop S next dropIter s = .ok (.ok a) (log, t) ↔
        ∃ s₁ s₂, Exec.Yields next a.flat s s₁ ∧ next s₁ = .ok none s₂ ∧
          dropIter s₂ = .ok () t ∧ log = ⟨S.count + 1, a.flat, []⟩) ∧
    (∀ (e : TryFromIterError) (log : IterLog X) (t : σ),
      loggedTryFromIter drop S next dropIter s = .ok (.error e) (log, t) ↔
        (∃ xs s₁ s₂ s₃, Exec.Yields next xs s s₁ ∧ xs.length < S.count ∧
          next s₁ = .ok none s₂ ∧ (Dtor.slice drop xs).run s₂ = .ok () s₃ ∧
          dropIter s₃ = .ok () t ∧ log = ⟨xs.length + 1, xs, xs⟩) ∨
        (∃ xs x s₁ s₂ s₃, Exec.Yields next xs s s₁ ∧ xs.length = S.count ∧
          next s₁ = .ok (some x) s₂ ∧ (Dtor.slice drop (x :: xs)).run s₂ = .ok () s₃ ∧
          dropIter s₃ = .ok () t ∧ log = ⟨S.count + 1, xs ++ [x], x :: xs⟩)) ∧
    (∀ (log : IterLog X) (t : σ),
      loggedTryFromIter drop S next dropIter s = .panic (log, t) →
      log.calls ≤ S.count + 1 ∧ log.dropped.Perm log.pulled) ∧
    TryFromIterEnds drop next dropIter S s (loggedTryFromIter drop S next dropIter s) := by
  have hends := loggedTryFromIter_ends drop next dropIter S s
  refine ⟨loggedTryFromIter_refines drop next dropIter S s, ?_, ?_, ?_, hends⟩
  · intro a log t
    constructor
    · intro hrun
      rw [hrun] at hends
      generalize hr : (Outcome.ok (Except.ok a) (log, t) : Outcome _ _) = r at hends
      cases hends with
      | accepted h hnone =>
          obtain ⟨u, hu, hdrop⟩ := Exec.inScope_eq_ok.mp hr.symm
          cases hu
          obtain ⟨hdrop, hlog⟩ := Exec.lift_eq_ok.mp hdrop
          exact ⟨_, _, h, hnone, hdrop, hlog⟩
      | short | surplus => cases (rejected_eq_ok.mp (Exec.lift_eq_ok.mp hr.symm).1).1
      | panicked => exact absurd (Exec.lift_eq_ok.mp hr.symm).1 (Exec.unwind_ne_ok _ _ _ _)
      | aborted | undefined => cases hr
    · rintro ⟨s₁, s₂, h, hnone, hdrop, rfl⟩
      rw [loggedTryFromIter_accepted h hnone]
      exact Exec.inScope_eq_ok.mpr ⟨_, rfl, Exec.lift_eq_ok.mpr ⟨hdrop, rfl⟩⟩
  · intro e log t
    constructor
    · intro hrun
      rw [hrun] at hends
      generalize hr : (Outcome.ok (Except.error e) (log, t) : Outcome _ _) = r at hends
      cases hends with
      | accepted =>
          obtain ⟨u, hu, -⟩ := Exec.inScope_eq_ok.mp hr.symm
          cases hu
      | short h hlt hnone =>
          obtain ⟨hrejected, hlog⟩ := Exec.lift_eq_ok.mp hr.symm
          obtain ⟨-, s₃, hslice, hdrop⟩ := rejected_eq_ok.mp hrejected
          exact .inl ⟨_, _, _, s₃, h, hlt, hnone, hslice, hdrop, hlog⟩
      | surplus h hlength hsome =>
          obtain ⟨hrejected, hlog⟩ := Exec.lift_eq_ok.mp hr.symm
          obtain ⟨-, s₃, hslice, hdrop⟩ := rejected_eq_ok.mp hrejected
          exact .inr ⟨_, _, _, _, s₃, h, hlength, hsome, hslice, hdrop, hlog⟩
      | panicked => exact absurd (Exec.lift_eq_ok.mp hr.symm).1 (Exec.unwind_ne_ok _ _ _ _)
      | aborted | undefined => cases hr
    · rintro (⟨xs, s₁, s₂, s₃, h, hlt, hnone, hslice, hdrop, rfl⟩ |
        ⟨xs, x, s₁, s₂, s₃, h, hlength, hsome, hslice, hdrop, rfl⟩)
      · rw [loggedTryFromIter_short h hlt hnone]
        exact Exec.lift_eq_ok.mpr ⟨rejected_eq_ok.mpr ⟨rfl, s₃, hslice, hdrop⟩, rfl⟩
      · rw [loggedTryFromIter_surplus h hlength hsome]
        exact Exec.lift_eq_ok.mpr ⟨rejected_eq_ok.mpr ⟨rfl, s₃, hslice, hdrop⟩, rfl⟩
  · intro log t hrun
    rw [hrun] at hends
    generalize hr : (Outcome.panic (log, t) : Outcome _ (Except TryFromIterError (Array X S))) = r
      at hends
    cases hends with
    | accepted =>
        obtain rfl := accepted_panic hr.symm
        exact ⟨Nat.le_refl _, .refl _⟩
    | short h hlt hnone =>
        obtain rfl : log = _ := (Exec.lift_eq_panic.mp hr.symm).2
        exact ⟨Nat.succ_le_succ (Nat.le_of_lt hlt), .refl _⟩
    | surplus =>
        obtain rfl : log = _ := (Exec.lift_eq_panic.mp hr.symm).2
        exact ⟨Nat.le_refl _, (List.perm_append_singleton _ _).symm⟩
    | panicked h hle hpanic =>
        obtain rfl : log = _ := (Exec.lift_eq_panic.mp hr.symm).2
        exact ⟨Nat.succ_le_succ hle, .refl _⟩
    | aborted | undefined => cases hr

/-- An iterator that ends at its second call, and would go on at the third. -/
theorem try_from_iter_accepts_exactly_unfused :
    loggedTryFromIter (fun _ => Dtor.noop) (.len 2)
        (fun calls => .ok (if calls = 1 then none else some calls) (calls + 1)) (pure ()) 0 =
      .ok (.error ⟨⟩) (⟨2, [0], [0]⟩, 2) := by
  apply ((try_from_iter_accepts_exactly _ _ _ _ _).2.2.1 _ _ _).mpr
  exact .inl ⟨[0], 1, 2, 2, .cons rfl (.nil 1), by decide, rfl, rfl, rfl, rfl⟩

end Array

end ConstArray
