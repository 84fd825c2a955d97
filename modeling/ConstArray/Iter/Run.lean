import ConstArray.Iter.Deque
import ConstArray.Owner.World

/-! # Runs of by-value iterators

A run calls methods on a pool of iterators, to which `clone` adds and from which the
methods that take an iterator by value remove. A call that panics is caught, and the
run goes on. What the caller does between the calls is a parameter.
-/

namespace ConstArray

open Foundation

variable {σ X L M α : Type} {S : ConcreteSize}

/-- The methods that borrow an iterator. -/
inductive Method (X : Type) where
  | next
  | nextBack
  | nth (n : Nat)
  | nthBack (n : Nat)
  | sizeHint
  | len
  | asSlice
  /-- A write through `as_mut_slice`. -/
  | replace (j : Nat) (x : X)

/-- A call on the iterator with a given index. -/
inductive Call (X : Type) where
  | method (i : Nat) (m : Method X)
  | clone (i : Nat)
  | count (i : Nat)
  | last (i : Nat)
  | drop (i : Nat)

inductive Answer (X : Type) where
  | item (x : Option X)
  | bounds (lower : Nat) (upper : Option Nat)
  | len (n : Nat)
  | slice (xs : List X)
  | replaced (old : X)
  | unit
  | panicked
  /-- There is no such iterator. -/
  | absent (c : Call X)

/-- An implementation of the methods, for iterators with the state `L`. -/
structure ByValue (σ X L : Type) where
  method : Method X → Exec (L × σ) (Answer X)
  clone : L → Exec σ L
  count : L → Exec σ Nat
  last : L → Exec σ (Option X)
  drop : L → Exec σ Unit

/-- The methods of `IntoIter`. -/
def IntoIter.byValue (w : Nat) (overflowChecks : Bool) (leak : Exec σ Unit)
    (dropElem : X → Dtor σ) (cloneElem : X → Exec σ X) : ByValue σ X (IntoIter X S) where
  method
    | .next => .item <$> next
    | .nextBack => .item <$> nextBack
    | .nth n => .item <$> nth w overflowChecks leak dropElem n
    | .nthBack n => .item <$> nthBack w overflowChecks leak dropElem n
    | .sizeHint => do
        let it ← Exec.get
        return .bounds it.sizeHint.1 it.sizeHint.2
    | .len => do .len <$> (← Exec.get).len
    | .asSlice => do .slice <$> (← Exec.get).asSlice
    | .replace j x => .replaced <$> replace j x
  clone := clone w overflowChecks leak dropElem cloneElem
  count := count leak dropElem
  last := last leak dropElem
  drop := dropGlue leak dropElem

/-- The same methods of a queue. -/
def Foundation.Deque.byValue (dropElem : X → Dtor σ) (cloneElem : X → Exec σ X) :
    ByValue σ X (List X) where
  method
    | .next => .item <$> next
    | .nextBack => .item <$> nextBack
    | .nth n => .item <$> nth dropElem n
    | .nthBack n => .item <$> nthBack dropElem n
    | .sizeHint => do
        let xs ← Exec.get
        return .bounds xs.length (some xs.length)
    | .len => do return .len (← Exec.get).length
    | .asSlice => do return .slice (← Exec.get)
    | .replace j x => .replaced <$> replace j x
  clone := clone dropElem cloneElem
  count := count dropElem
  last := last dropElem
  drop xs := (Dtor.slice dropElem xs).run

/-! ## Pools -/

/-- Go on with entry `i` of the pool, or answer that there is none. -/
def onEntry (i : Nat) (absent : α) (k : L → Exec (List L × σ) α) : Exec (List L × σ) α := do
  match (← Exec.get)[i]? with
  | some l => k l
  | none => return absent

/-- Move entry `i` out of the pool. -/
def takeEntry (i : Nat) (absent : α) (k : L → Exec σ α) : Exec (List L × σ) α :=
  onEntry i absent fun l => do
    Exec.put ((← Exec.get).eraseIdx i)
    (k l).lift

namespace ByValue

def call (I : ByValue σ X L) : Call X → Exec (List L × σ) (Answer X)
  | .method i m => onEntry i (.absent (.method i m)) fun l =>
      (I.method m).zoom (fun _ => l) fun pool l' => pool.set i l'
  | .clone i => onEntry i (.absent (.clone i)) fun l => do
      let new ← (I.clone l).lift
      Exec.put ((← Exec.get) ++ [new])
      return .unit
  | .count i => takeEntry i (.absent (.count i)) fun l => .len <$> I.count l
  | .last i => takeEntry i (.absent (.last i)) fun l => .item <$> I.last l
  | .drop i => takeEntry i (.absent (.drop i)) fun l => (fun _ => .unit) <$> I.drop l

/-- The answers to some calls, after those in `done`. -/
def run (I : ByValue σ X L) (between : Exec σ Unit) : List (Call X) → List (Answer X) →
    Exec (List L × σ) (List (Answer X))
  | [], done => return done
  | c :: calls, done => do
      between.lift
      let answer ← (I.call c).catchUnwind
      I.run between calls (done ++ [answer.getD .panicked])

/-! ## Refinement of runs -/

/-- Every method refines its counterpart. -/
structure Refines (H : L → M → Prop) (I : ByValue σ X L) (J : ByValue σ X M) : Prop where
  method : ∀ m, Exec.Refines (Exec.Local H) Eq (I.method m) (J.method m)
  clone : ∀ {l m}, H l m → Exec.Refines Eq H (I.clone l) (J.clone m)
  count : ∀ {l m}, H l m → I.count l = J.count m
  last : ∀ {l m}, H l m → I.last l = J.last m
  drop : ∀ {l m}, H l m → I.drop l = J.drop m

end ByValue

theorem forall₂_getElem? {H : L → M → Prop} {ls : List L} {ms : List M}
    (h : List.Forall₂ H ls ms) (i : Nat) : Option.Rel H ls[i]? ms[i]? := by
  induction h generalizing i with
  | nil => exact .none
  | cons hH _ ih =>
      cases i with
      | zero => exact .some hH
      | succ i => exact ih i

theorem forall₂_set {H : L → M → Prop} {ls : List L} {ms : List M} (h : List.Forall₂ H ls ms)
    (i : Nat) {l : L} {m : M} (hH : H l m) : List.Forall₂ H (ls.set i l) (ms.set i m) := by
  induction h generalizing i with
  | nil => exact .nil
  | cons hH' hrest ih =>
      cases i with
      | zero => exact .cons hH hrest
      | succ i => exact .cons hH' (ih i)

theorem forall₂_eraseIdx {H : L → M → Prop} {ls : List L} {ms : List M}
    (h : List.Forall₂ H ls ms) (i : Nat) :
    List.Forall₂ H (ls.eraseIdx i) (ms.eraseIdx i) := by
  induction h generalizing i with
  | nil => exact .nil
  | cons hH hrest ih =>
      cases i with
      | zero => exact hrest
      | succ i => exact .cons hH (ih i)

variable {H : L → M → Prop} {I : ByValue σ X L} {J : ByValue σ X M}

theorem onEntry_refines (i : Nat) (absent : α) {k : L → Exec (List L × σ) α}
    {k' : M → Exec (List M × σ) α}
    (h : ∀ l m, H l m → Exec.Refines (Exec.Local (List.Forall₂ H)) Eq (k l) (k' m)) :
    Exec.Refines (Exec.Local (List.Forall₂ H)) Eq (onEntry i absent k) (onEntry i absent k') := by
  refine .bind .get ?_
  intro ls ms hpool
  have hentry := forall₂_getElem? hpool i
  generalize ls[i]? = l, ms[i]? = m at hentry
  cases hentry with
  | some hH => exact h _ _ hH
  | none => exact .pure rfl

theorem takeEntry_refines (i : Nat) (absent : α) {k : L → Exec σ α} {k' : M → Exec σ α}
    (h : ∀ l m, H l m → k l = k' m) :
    Exec.Refines (Exec.Local (List.Forall₂ H)) Eq (takeEntry i absent k)
      (takeEntry i absent k') := by
  refine onEntry_refines i absent fun l m hH => .bind .get ?_
  intro ls ms hpool
  refine .bind (.put (forall₂_eraseIdx hpool i)) ?_
  intro _ _ _
  rw [h l m hH]
  exact .lift _

theorem ByValue.Refines.call (h : ByValue.Refines H I J) (c : Call X) :
    Exec.Refines (Exec.Local (List.Forall₂ H)) Eq (I.call c) (J.call c) := by
  cases c with
  | method i m =>
      refine onEntry_refines i _ ?_
      intro l l' hH
      exact .zoom (h.method m) (fun _ _ _ => hH) fun _ _ _ _ hpool hnew => forall₂_set hpool i hnew
  | clone i =>
      refine onEntry_refines i _ ?_
      intro l l' hH
      refine .bind (.liftBoth (h.clone hH)) ?_
      intro new new' hnew
      refine .bind .get fun ls ms hpool => .bind (.put ?_) fun _ _ _ => .pure rfl
      exact List.rel_append hpool (.cons hnew .nil)
  | count i => exact takeEntry_refines i _ fun l m hH => by rw [h.count hH]
  | last i => exact takeEntry_refines i _ fun l m hH => by rw [h.last hH]
  | drop i => exact takeEntry_refines i _ fun l m hH => by rw [h.drop hH]

/-- Runs refine runs. -/
theorem ByValue.Refines.run (h : ByValue.Refines H I J) (between : Exec σ Unit)
    (calls : List (Call X)) (done : List (Answer X)) :
    Exec.Refines (Exec.Local (List.Forall₂ H)) Eq (I.run between calls done)
      (J.run between calls done) := by
  induction calls generalizing done with
  | nil => exact .pure rfl
  | cons c calls ih =>
      refine .bind_same (.lift between) ?_
      intro _
      refine .bind_same (.catchUnwind (h.call c)) ?_
      intro answer
      exact ih _

namespace IntoIter

variable {w : Nat}

/-- The iterator refines the queue of its elements. -/
theorem byValue_refines (hS : S.Evaluates w) (overflowChecks : Bool) (leak : Exec σ Unit)
    (dropElem : X → Dtor σ) (cloneElem : X → Exec σ X) :
    ByValue.Refines (Holds (S := S)) (byValue w overflowChecks leak dropElem cloneElem)
      (Deque.byValue dropElem cloneElem) where
  method m := by
    have hmap {β γ : Type} {c : Exec (IntoIter X S × σ) β} {d : Exec (List X × σ) β} (f : β → γ)
        (h : Exec.Refines (Simulates σ X S) Eq c d) :
        Exec.Refines (Simulates σ X S) Eq (f <$> c) (f <$> d) := h.map fun _ _ => congrArg f
    cases m with
    | next => exact hmap _ next_refines
    | nextBack => exact hmap _ nextBack_refines
    | nth n => exact hmap _ (nth_refines hS leak dropElem n)
    | nthBack n => exact hmap _ (nthBack_refines leak dropElem n)
    | sizeHint =>
        refine .bind .get ?_
        intro it xs h
        rw [h.sizeHint_eq]
        exact .pure rfl
    | len =>
        refine .bind .get ?_
        intro it xs h
        rw [h.len_eq]
        exact .pure rfl
    | asSlice =>
        refine .bind .get ?_
        intro it xs h
        rw [h.asSlice_eq]
        exact .pure rfl
    | replace j x => exact hmap _ (replace_refines j x)
  clone h := h.clone_refines hS leak dropElem cloneElem
  count h := h.count_eq leak dropElem
  last h := h.last_eq leak dropElem
  drop h := h.dropGlue_eq leak dropElem

end IntoIter

end ConstArray
