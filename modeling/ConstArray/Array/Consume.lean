import ConstArray.Foundation.Consume
import ConstArray.Iter.Deque

/-! # Builders that consume a source

`map`, `zip` and `pad_from` build an array in place from by-value iterators that they
own, `try_from_iter` from an iterator of the caller. The target is half built while
the source is half consumed; each of them is a list traversal with one owner for
every element.
-/

namespace ConstArray

open Foundation

variable {σ L M X Y : Type} {P S : ConcreteSize}

namespace Array

/-- The closure of `from_exact_iter`. Its branch for an iterator that is too short is
`unreachable`, which panics in the source. -/
def exactNext (unreachable : Exec σ Y) (next : Exec (L × σ) (Option Y)) : Exec (L × σ) Y := do
  match ← next with
  | some y => return y
  | none => unreachable.lift

/-- `Array::from_exact_iter` of an iterator with the state `iter`. -/
def fromExactIter (unreachable : Exec σ Y) (drop : Y → Dtor σ) (S : ConcreteSize)
    (next : Exec (L × σ) (Option Y)) (dropIter : L → Exec σ Unit) (iter : L) :
    Exec σ (Array Y S) :=
  Exec.withLocal iter
    (fromFn (fun y => (drop y).lift) S fun _ => exactNext unreachable next)
    dropIter fun a => (a.drop drop).run

/-- `Iterator::next` of `iter.map(f)`. -/
def mapNext (f : X → Exec σ Y) (next : Exec (L × σ) (Option X)) : Exec (L × σ) (Option Y) := do
  match ← next with
  | some x => some <$> (f x).lift
  | none => return none

/-- `Array::map`. -/
def map (unreachable : Exec σ Y) (dropX : X → Dtor σ) (dropY : Y → Dtor σ) (f : X → Exec σ Y)
    (a : Array X S) : Exec σ (Array Y S) := do
  let iter ← Exec.ofOption a.intoIter
  fromExactIter unreachable dropY S (mapNext f IntoIter.next)
    (IntoIter.dropGlue (pure ()) dropX) iter

/-- `Iterator::next` of `a.zip(b)`. An element of `a` without a counterpart is
dropped. -/
def zipNext (drop : X → Dtor σ) (nextA : Exec (L × σ) (Option X))
    (nextB : Exec (M × σ) (Option Y)) : Exec ((L × M) × σ) (Option (X × Y)) := do
  match ← nextA.zoom Prod.fst fun iters l => (l, iters.2) with
  | some x =>
      match ← (nextB.zoom Prod.snd fun iters m => (iters.1, m)).onUnwind (drop x).lift.run with
      | some y => return some (x, y)
      | none => do
          (drop x).lift.run
          return none
  | none => return none

/-- The drop glue of `Zip`. -/
def zipGlue (dropX : X → Dtor σ) (dropY : Y → Dtor σ) (iters : IntoIter X S × IntoIter Y S) :
    Exec σ Unit := do
  (iters.1.dropGlue (pure ()) dropX).onUnwind (iters.2.dropGlue (pure ()) dropY)
  iters.2.dropGlue (pure ()) dropY

/-- `Array::zip`. -/
def zip (unreachable : Exec σ (X × Y)) (dropX : X → Dtor σ) (dropY : Y → Dtor σ)
    (a : Array X S) (other : Array Y S) : Exec σ (Array (X × Y) S) := do
  let iterA ← Exec.ofOption a.intoIter
  let iterB ← Exec.ofOption other.intoIter
  fromExactIter unreachable (Dtor.pair dropX dropY) S (zipNext dropX IntoIter.next IntoIter.next)
    (zipGlue dropX dropY) (iterA, iterB)

/-- `Array::pad_from`. The iterator over the prefix is dropped before `fill`. -/
def padFrom (drop : X → Dtor σ) (cloneElem : X → Exec σ X) (initial : Array X P)
    (_ : AtMost P S) (fill : X) : Exec σ (Array X S) :=
  Exec.inScope (do
      let iter ← Exec.ofOption initial.intoIter
      Exec.withLocal iter
        (fromFn (fun x => (drop x).lift) S fun _ => do
          match ← IntoIter.next with
          | some x => return x
          | none => (cloneElem fill).lift)
        (IntoIter.dropGlue (pure ()) drop) fun a => (a.drop drop).run)
    (drop fill).run fun a => (a.drop drop).run

/-- `TryFromIterError`. -/
structure TryFromIterError where
  deriving DecidableEq

/-- `Array::try_from_iter` of an iterator of the caller, whose state is in the world.
A surplus element is a temporary, dropped before the array and the iterator. -/
def tryFromIter (drop : X → Dtor σ) (S : ConcreteSize) (next : Exec σ (Option X))
    (dropIter : Exec σ Unit) : Exec σ (Except TryFromIterError (Array X S)) :=
  Exec.inScope (do
      match ← tryFromFn drop (fun _ => Dtor.noop) S fun _ => do
          match ← next with
          | some x => return .ok x
          | none => return .error (⟨⟩ : TryFromIterError) with
      | .error e => return .error e
      | .ok array =>
          match ← next.onUnwind (array.drop drop).run with
          | some surplus => do
              ((drop surplus).andThen (array.drop drop)).run
              return .error ⟨⟩
          | none => return .ok array)
    dropIter fun
      | .ok array => (array.drop drop).run
      | .error _ => pure ()

/-! ## What they build -/

theorem fromFn_refines {σ τ : Type} {R : σ → τ → Prop} {drop : X → Dtor σ} {drop' : X → Dtor τ}
    (hdrop : ∀ x, Exec.Refines R Eq (drop x).run (drop' x).run) (S : ConcreteSize)
    {f : Nat → Exec σ X} {g : Nat → Exec τ X} (h : ∀ i, Exec.Refines R Eq (f i) (g i)) :
    Exec.Refines R Eq (fromFn drop S f) (fromFn drop' S g) := by
  rw [fromFn_eq, fromFn_eq]
  have hcalls := Exec.Refines.forall₂_calls h (List.range S.count)
  exact (Exec.Refines.traverse hdrop hcalls []).bind_same fun _ => .ofOption _

theorem collect_refines {σ τ E : Type} {R : σ → τ → Prop} (r : Except E (List X)) :
    Exec.Refines R Eq (collect S r) (collect S r) := by
  cases r with
  | ok xs => exact .map (.ofOption _) fun _ _ => congrArg Except.ok
  | error e => exact .pure rfl

theorem tryFromFn_refines {σ τ E : Type} {R : σ → τ → Prop} {drop : X → Dtor σ}
    {drop' : X → Dtor τ} {dropErr : E → Dtor σ} {dropErr' : E → Dtor τ}
    {f : Nat → Exec σ (Except E X)} {f' : Nat → Exec τ (Except E X)}
    (hdrop : ∀ x, Exec.Refines R Eq (drop x).run (drop' x).run)
    (hdropErr : ∀ e, Exec.Refines R Eq (dropErr e).run (dropErr' e).run)
    (hf : ∀ i, Exec.Refines R Eq (f i) (f' i)) :
    Exec.Refines R Eq (tryFromFn drop dropErr S f) (tryFromFn drop' dropErr' S f') := by
  have hcalls := Exec.Refines.forall₂_calls hf (List.range S.count)
  rw [tryFromFn_eq, tryFromFn_eq]
  exact (Exec.Refines.tryTraverse hdrop hdropErr hcalls []).bind_same collect_refines

/-- The builder's closure over an iterator that is replaced by the queue of its
elements. -/
theorem withLocal_fromFn {H : L → M → Prop} {l : L} {m : M} (hinit : H l m)
    {drop : Y → Dtor σ} {c : Exec (L × σ) Y} {d : Exec (M × σ) Y}
    (hc : Exec.Refines (Exec.Local H) Eq c d) {dropL : L → Exec σ Unit} {dropM : M → Exec σ Unit}
    (hdrop : ∀ l m, H l m → dropL l = dropM m) (dropResult : Array Y S → Exec σ Unit) :
    Exec.withLocal l (fromFn (fun y => (drop y).lift) S fun _ => c) dropL dropResult =
      Exec.withLocal m
        (Exec.traverse (fun y => (drop y).lift) (.replicate S.count d) [] >>=
          fun ys => (Exec.ofOption (ofFlat S ys)).lift) dropM dropResult := by
  have hdropLift (y : Y) : Exec.Refines (Exec.Local H) Eq
      ((drop y).lift : Dtor (L × σ)).run ((drop y).lift : Dtor (M × σ)).run := .lift (drop y).run
  rw [Exec.Refines.withLocal hinit (fromFn_refines hdropLift S fun _ => hc) hdrop dropResult,
    fromFn_eq, List.map_const', List.length_range]
  simp only [Exec.lift_ofOption]

theorem exactNext_refines (unreachable : Exec σ Y) {H : L → M → Prop}
    {next : Exec (L × σ) (Option Y)} {next' : Exec (M × σ) (Option Y)}
    (h : Exec.Refines (Exec.Local H) Eq next next') :
    Exec.Refines (Exec.Local H) Eq (exactNext unreachable next) (exactNext unreachable next') := by
  refine h.bind_same ?_
  intro y
  cases y with
  | some y => exact .pure rfl
  | none => exact .lift unreachable

theorem mapNext_refines (f : X → Exec σ Y) {H : L → M → Prop} {next : Exec (L × σ) (Option X)}
    {next' : Exec (M × σ) (Option X)} (h : Exec.Refines (Exec.Local H) Eq next next') :
    Exec.Refines (Exec.Local H) Eq (mapNext f next) (mapNext f next') := by
  refine h.bind_same ?_
  intro x
  cases x with
  | some x => exact .map (.lift (f x)) fun _ _ => congrArg some
  | none => exact .pure rfl

theorem exactNext_mapNext (unreachable : Exec σ Y) (f : X → Exec σ Y) :
    exactNext unreachable (mapNext f Deque.next) = Exec.pull f unreachable.lift := by
  rw [exactNext, mapNext, bind_assoc, Exec.pull]
  refine congrArg _ ?_
  funext x
  cases x with
  | some x =>
      dsimp only
      rw [bind_map_left, bind_pure]
  | none => rfl

/-- `map` calls `f` with the elements in order. -/
theorem map_eq (unreachable : Exec σ Y) (dropX : X → Dtor σ) (dropY : Y → Dtor σ)
    (f : X → Exec σ Y) (a : Array X S) :
    a.map unreachable dropX dropY f = (do
      Exec.ofOption (ofFlat S (← Exec.mapOwned dropX dropY f a.flat []))) := by
  obtain ⟨it, hit, hholds⟩ := IntoIter.exists_intoIter a
  have hpull : Exec.Refines (IntoIter.Simulates σ X S) Eq
      (exactNext unreachable (mapNext f IntoIter.next)) (Exec.pull f unreachable.lift) := by
    rw [← exactNext_mapNext]
    exact exactNext_refines unreachable (mapNext_refines f IntoIter.next_refines)
  rw [map, hit, Exec.ofOption_some, pure_bind, fromExactIter,
    withLocal_fromFn hholds hpull (fun _ _ h => h.dropGlue_eq _ dropX), ← a.length_flat]
  exact Exec.withLocal_mapOwned dropX dropY f _ _ _ a.flat []

/-- The pairs of two queues of the same length, none of which is left over. -/
theorem withLocal_zip {α : Type} (unreachable : Exec σ (X × Y)) (dropX : X → Dtor σ)
    (drop : X × Y → Dtor σ) (dropLocal : List X × List Y → Dtor σ)
    (hdrop : dropLocal ([], []) = Dtor.noop) (k : List (X × Y) → Exec σ α)
    (dropResult : α → Exec σ Unit) (xs : List X) (ys : List Y) (hlength : xs.length = ys.length)
    (done : List (X × Y)) :
    Exec.withLocal (xs, ys)
        (Exec.traverse (fun z => (drop z).lift)
          (.replicate xs.length (exactNext unreachable (zipNext dropX Deque.next Deque.next)))
          done >>= fun zs => (k zs).lift)
        (fun l => (dropLocal l).run) dropResult =
      k (done ++ xs.zip ys) := by
  induction xs generalizing ys done with
  | nil =>
      rw [List.length_nil, eq_comm, List.length_eq_zero_iff] at hlength
      rw [hlength, List.zip_nil_left, List.append_nil]
      exact Exec.withLocal_lift ([], []) (k done) (congrArg Dtor.run hdrop) dropResult
  | cons x xs ih =>
      cases ys with
      | nil => cases hlength
      | cons y ys =>
          funext s
          rw [List.length_cons, List.replicate_succ, Exec.withLocal_traverse_cons]
          have hrest := congrFun (ih ys (Nat.succ.inj hlength) (done ++ [(x, y)])) s
          rwa [List.append_assoc, List.singleton_append] at hrest

/-- Both iterators hold the elements of their queue. -/
def HoldsBoth (iters : IntoIter X S × IntoIter Y S) (queues : List X × List Y) : Prop :=
  iters.1.Holds queues.1 ∧ iters.2.Holds queues.2

theorem zipNext_refines (drop : X → Dtor σ) :
    Exec.Refines (Exec.Local HoldsBoth) Eq
      (zipNext drop IntoIter.next IntoIter.next :
        Exec ((IntoIter X S × IntoIter Y S) × σ) (Option (X × Y)))
      (zipNext drop Deque.next Deque.next) := by
  refine .bind_same (.zoom IntoIter.next_refines (fun _ _ h => h.1)
    fun _ _ _ _ h hx => ⟨hx, h.2⟩) fun x => ?_
  cases x with
  | none => exact .pure rfl
  | some x =>
      refine .bind_same (.onUnwind (.zoom IntoIter.next_refines (fun _ _ h => h.2)
        fun _ _ _ _ h hy => ⟨h.1, hy⟩) (.lift _)) fun y => ?_
      cases y with
      | none => exact .bind_same (.lift _) fun _ => .pure rfl
      | some y => exact .pure rfl

/-- `zip` moves the pairs into place. -/
theorem zip_eq (unreachable : Exec σ (X × Y)) (dropX : X → Dtor σ) (dropY : Y → Dtor σ)
    (a : Array X S) (b : Array Y S) :
    a.zip unreachable dropX dropY b = Exec.ofOption (ofFlat S (a.flat.zip b.flat)) := by
  obtain ⟨iterA, hiterA, hA⟩ := IntoIter.exists_intoIter a
  obtain ⟨iterB, hiterB, hB⟩ := IntoIter.exists_intoIter b
  let dropLocal (l : List X × List Y) : Dtor σ :=
    (Dtor.slice dropX l.1).andThen (Dtor.slice dropY l.2)
  have hinit : HoldsBoth (iterA, iterB) (a.flat, b.flat) := ⟨hA, hB⟩
  have hpull := exactNext_refines unreachable (zipNext_refines (Y := Y) (S := S) dropX)
  have hdrop (l : IntoIter X S × IntoIter Y S) (m : List X × List Y) (h : HoldsBoth l m) :
      zipGlue dropX dropY l = (dropLocal m).run := by
    rw [zipGlue, h.1.dropGlue_eq, h.2.dropGlue_eq]
    rfl
  have hpairs := withLocal_zip unreachable dropX (Dtor.pair dropX dropY) dropLocal rfl
    (fun zs => Exec.ofOption (ofFlat S zs)) (fun z => (z.drop (Dtor.pair dropX dropY)).run)
    a.flat b.flat (by simp) []
  rw [zip, hiterA, hiterB, Exec.ofOption_some, Exec.ofOption_some, pure_bind, pure_bind]
  rw [length_flat, List.nil_append] at hpairs
  rw [← hpairs]
  exact withLocal_fromFn hinit hpull hdrop _

/-- `pad_from` moves the prefix into place, then clones `fill`. -/
theorem padFrom_eq (drop : X → Dtor σ) (cloneElem : X → Exec σ X) (p : AtMost P S)
    (h : P.count ≤ S.count) (initial : Array X P) (fill : X) :
    padFrom drop cloneElem initial p fill =
      Exec.inScope (do
        Exec.ofOption (ofFlat S (← Exec.traverse drop
          (.replicate (S.count - P.count) (cloneElem fill)) initial.flat)))
        (drop fill).run fun a => (a.drop drop).run := by
  obtain ⟨it, hit, hholds⟩ := IntoIter.exists_intoIter initial
  have hpull : Exec.Refines (IntoIter.Simulates σ X P) Eq
      (do
        match ← IntoIter.next with
        | some x => return x
        | none => (cloneElem fill).lift)
      (Exec.pull pure (cloneElem fill).lift) := by
    refine IntoIter.next_refines.bind_same ?_
    intro x
    cases x with
    | some x => exact .pure rfl
    | none => exact .lift (cloneElem fill)
  have hcalls : List.replicate S.count (Exec.pull pure (cloneElem fill).lift) =
      .replicate (initial.flat.length + (S.count - P.count))
        (Exec.pull pure (cloneElem fill).lift) := by
    rw [length_flat, Nat.add_sub_cancel' h]
  rw [padFrom, hit, Exec.ofOption_some, pure_bind,
    withLocal_fromFn hholds hpull (fun _ _ h => h.dropGlue_eq _ drop), hcalls,
    Exec.withLocal_padded, List.nil_append]

end Array

end ConstArray
