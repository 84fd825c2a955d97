import ConstArray.Foundation.Ownership
import ConstArray.Storage.Value
import Mathlib.Algebra.Order.BigOperators.Group.Multiset

/-! # Elements with an identity

Every element has an identity of its own. A world records which elements were ever
created, which of them user code holds and which were dropped; all others must be
owned by a live value. User code is arbitrary code that conserves ownership.
-/

namespace ConstArray

open Foundation

variable {U X Y E : Type} {S : ConcreteSize}

/-- An element, which is its identity. -/
structure Element where
  id : Nat
  deriving DecidableEq

/-- The elements that no value of the program owns, and the state of user code. -/
structure World (U : Type) where
  /-- Every element ever created. -/
  created : Multiset Element
  /-- The elements that were handed over to user code, or that it kept. -/
  held : Multiset Element
  /-- The elements whose destructor was called, as often as it was called. -/
  dropped : Multiset Element
  /-- How many calls of user code may still panic. -/
  fuse : Nat
  user : U

namespace World

/-- The elements in `m` are live, and every element is in exactly one place. -/
structure Owns (m : Multiset Element) (w : World U) : Prop where
  created_eq : w.created = m + w.held + w.dropped
  nodup : w.created.Nodup

/-- Elements are neither forgotten nor undropped, and failed calls burn the fuse. -/
structure Later (v w : World U) : Prop where
  created_le : v.created ≤ w.created
  dropped_le : v.dropped ≤ w.dropped
  fuse_le : w.fuse ≤ v.fuse

theorem Owns.with_fuse {m : Multiset Element} {w : World U} (h : w.Owns m) (n : Nat) :
    ({ w with fuse := n } : World U).Owns m := ⟨h.created_eq, h.nodup⟩

/-- An element is live, held or dropped, and only one of it, once. -/
theorem Owns.count_eq {m : Multiset Element} {w : World U} (h : w.Owns m) {x : Element}
    (hx : x ∈ w.created) : m.count x + w.held.count x + w.dropped.count x = 1 := by
  have hcount := Multiset.count_eq_one_of_mem h.nodup hx
  rwa [h.created_eq, Multiset.count_add, Multiset.count_add] at hcount

def accounting (U : Type) : Accounting (World U) Element where
  owns m w := w.Owns m
  later := Later
  budget := fuse
  later_refl _ := ⟨le_rfl, le_rfl, le_rfl⟩
  later_trans h h' := ⟨h.created_le.trans h'.created_le, h.dropped_le.trans h'.dropped_le,
    h'.fuse_le.trans h.fuse_le⟩
  budget_le h := h.fuse_le

end World

/-- From now on at most one call of user code panics. -/
def World.rearm : Exec (World U) Unit := fun w => .ok () { w with fuse := 1 }

/-- The destructor of the elements: user code that is called with an element that is
already dropped. -/
structure Destructor (U : Type) where
  run : Element → Exec (World U) Unit
  ne_ub : ∀ x w, run x w ≠ .ub
  conserves : ∀ x, (World.accounting U).Conserves 0 (run x) fun _ => 0

/-- The elements that a value owns, in the order in which they are dropped. -/
class Owning (X : Type*) where
  elements : X → List Element

instance : Owning Element := ⟨fun x => [x]⟩

instance [Owning X] [Owning Y] : Owning (X × Y) :=
  ⟨fun xy => Owning.elements xy.1 ++ Owning.elements xy.2⟩

instance [Owning X] : Owning (Option X) := ⟨fun x => x.toList.flatMap Owning.elements⟩

instance [Owning X] [Owning E] : Owning (Except E X) where
  elements
    | .ok x => Owning.elements x
    | .error e => Owning.elements e

instance [Owning X] : Owning (Array X S) := ⟨fun a => a.flat.flatMap Owning.elements⟩

instance [Owning X] {n : Nat} : Owning (List.Vector X n) :=
  ⟨fun v => v.toList.flatMap Owning.elements⟩

/-- The elements that a value owns. -/
def owned {X : Type*} [Owning X] (x : X) : Multiset Element := Owning.elements x

theorem coe_flatMap_elements [Owning X] (xs : List X) :
    (xs.flatMap Owning.elements : Multiset Element) = total owned xs := by
  induction xs with
  | nil => rfl
  | cons x xs ih =>
      rw [List.flatMap_cons, ← Multiset.coe_add, ih, total_cons]
      rfl

theorem owned_option [Owning X] (x : Option X) : optionIds owned x = owned x := by
  cases x with
  | none => rfl
  | some x => exact congrArg Multiset.ofList (List.flatMap_singleton ..).symm

theorem owned_except [Owning X] [Owning E] (r : Except E X) :
    resultIds owned owned r = owned r := by
  cases r <;> rfl

theorem owned_prod [Owning X] [Owning Y] (x : X × Y) : owned x = owned x.1 + owned x.2 :=
  (Multiset.coe_add _ _).symm

theorem owned_vector [Owning X] {n : Nat} (v : List.Vector X n) :
    owned v = total owned v.toList := coe_flatMap_elements v.toList

/-- An array owns what its elements own. -/
theorem owned_array [Owning X] (a : Array X S) : owned a = total owned a.flat :=
  coe_flatMap_elements a.flat

/-- An array of arrays owns what all their elements own. -/
theorem owned_chunks [Owning X] {S2 : ConcreteSize} (c : Array (Array X S2) S) :
    owned c = total owned (c.flat.flatMap Array.flat) := by
  rw [owned_array, total_flatMap]
  exact congrArg (total · c.flat) (funext owned_array)

namespace Destructor

/-- Drop an element. -/
def drop (d : Destructor U) (x : Element) : Dtor (World U) where
  run w := d.run x { w with dropped := x ::ₘ w.dropped }
  ne_ub _ := d.ne_ub x _

/-- Drop a value. -/
def dropValue [Owning X] (d : Destructor U) (x : X) : Dtor (World U) :=
  Dtor.slice d.drop (Owning.elements x)

theorem conserves_drop (d : Destructor U) (x : Element) :
    (World.accounting U).Conserves {x} (d.drop x).run fun _ => 0 := by
  intro frame w h
  have hdropped : ({ w with dropped := x ::ₘ w.dropped } : World U).Owns (0 + frame) := by
    refine ⟨?_, h.nodup⟩
    change w.created = 0 + frame + w.held + x ::ₘ w.dropped
    rw [h.created_eq, Multiset.singleton_add, Multiset.cons_add, Multiset.cons_add,
      Multiset.add_cons, zero_add]
  exact (d.conserves x hdropped).of_later ⟨le_rfl, Multiset.le_cons_self _ _, le_rfl⟩

theorem total_singleton_elements (xs : List Element) :
    total (fun x : Element => {x}) xs = (xs : Multiset Element) := by
  induction xs with
  | nil => rfl
  | cons x xs ih =>
      rw [total_cons, ih, Multiset.singleton_add]
      rfl

theorem conserves_dropValue [Owning X] (d : Destructor U) (x : X) :
    (World.accounting U).Conserves (owned x) (d.dropValue x).run fun _ => 0 := by
  have hslice := Accounting.Conserves.slice d.conserves_drop (Owning.elements x)
  rwa [total_singleton_elements] at hslice

end Destructor

/-! ## User code -/

namespace World

/-- Create an element with an identity of its own. -/
def create : Exec (World U) Element := fun w =>
  let x := ⟨(w.created.map Element.id).sum + 1⟩
  .ok x { w with created := x ::ₘ w.created }

theorem conserves_create :
    (World.accounting U).Conserves 0 create fun x => {x} := by
  intro frame w h
  refine .ok ⟨?_, Multiset.nodup_cons.mpr ⟨fun hmem => ?_, h.nodup⟩⟩
    ⟨Multiset.le_cons_self _ _, le_rfl, le_rfl⟩
  · change _ ::ₘ w.created = {_} + frame + w.held + w.dropped
    rw [h.created_eq, zero_add, add_assoc, add_assoc, add_assoc, Multiset.singleton_add]
  · have hle := Multiset.single_le_sum (fun n _ => Nat.zero_le n) _
      (Multiset.mem_map_of_mem Element.id hmem)
    exact absurd hle (Nat.not_succ_le_self _)

/-- Panic, as often as it may. -/
def mayPanic : Exec (World U) Unit := fun w =>
  if w.fuse = 0 then .ok () w else .panic { w with fuse := w.fuse - 1 }

theorem conserves_mayPanic : (World.accounting U).Conserves 0 mayPanic fun _ => 0 := by
  intro frame w h
  rw [zero_add] at h
  rcases Nat.eq_zero_or_pos w.fuse with hfuse | hfuse
  · rw [mayPanic, if_pos hfuse]
    exact .ok (by rwa [zero_add]) ((World.accounting U).later_refl w)
  · rw [mayPanic, if_neg (Nat.ne_of_gt hfuse)]
    exact .panic (h.with_fuse _) ⟨le_rfl, le_rfl, Nat.sub_le _ _⟩ (Nat.sub_lt hfuse Nat.one_pos)

end World

/-- A destructor that panics as often as it may. -/
def Destructor.mayPanic : Destructor U where
  run _ := World.mayPanic
  ne_ub x w := by
    rw [World.mayPanic]
    split <;> nofun
  conserves _ := World.conserves_mayPanic

end ConstArray
