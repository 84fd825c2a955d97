import ConstArray.Array.InPlace
import ConstArray.Owner.Operation
import Mathlib.Logic.Relation

/-! # Ownership of an array updated in place

The owner of an array may catch a panic of an update and go on with the array, or drop it.
The elements that were overwritten by then are dropped, and no element is lost or owned
twice.
-/

namespace ConstArray

open Foundation

variable {U X : Type} [Owning X] {S : ConcreteSize} {d : Destructor U}

namespace Array

theorem conserves_zipMutWith {Y : Type} {f : Y → Exec (X × World U) Unit}
    (hf : ∀ y, ((World.accounting U).besides owned).Conserves 0 (f y) fun _ => 0)
    (other : Array Y S) :
    ((World.accounting U).besides (owned : Array X S → _)).Conserves 0 (zipMutWith f other)
      fun _ => 0 := by
  have hloop := Accounting.Conserves.zipMut (n := S.count) hf other.flat
  rintro frame ⟨a, w⟩ h
  have hview : owned a = total owned a.toVector.toList + 0 := by
    rw [add_zero, toList_toVector, owned_array]
  refine hloop.zoom_apply hview (fun slice => ?_) h
  rw [add_zero, owned_array, flat_ofVector]

theorem conserves_cloneFromElem {cloneElem : X → Exec (World U) X}
    (hclone : ∀ x, (World.accounting U).Conserves 0 (cloneElem x) owned) (source : X) :
    ((World.accounting U).besides owned).Conserves 0
      (cloneFromElem d.dropValue cloneElem source) fun _ => 0 :=
  (hclone source).lift.bind fun x => .assign d.conserves_dropValue x

end Array

/-- An update of an array in place. Its user code is lawful; what it borrows may be a part
of any live value. -/
inductive InPlaceUpdate (d : Destructor U) : Exec (Array X S × World U) Unit → Prop where
  | zipMutWith {Y : Type} {f : Y → Exec (X × World U) Unit}
      (hf : ∀ y, ((World.accounting U).besides owned).Conserves 0 (f y) fun _ => 0)
      (other : Array Y S) : InPlaceUpdate d (Array.zipMutWith f other)
  | cloneFrom {cloneFromElem : X → Exec (X × World U) Unit}
      (hclone : ∀ x, ((World.accounting U).besides owned).Conserves 0 (cloneFromElem x)
        fun _ => 0)
      (source : Array X S) : InPlaceUpdate d (Array.cloneFrom cloneFromElem source)
  /-- The elements have no `clone_from` of their own. -/
  | cloneFromDefault {cloneElem : X → Exec (World U) X}
      (hclone : ∀ x, (World.accounting U).Conserves 0 (cloneElem x) owned)
      (source : Array X S) :
      InPlaceUpdate d (Array.cloneFrom (Array.cloneFromElem d.dropValue cloneElem) source)

/-- Every update conserves ownership, next to an array that it may change. -/
theorem InPlaceUpdate.conserves {c : Exec (Array X S × World U) Unit} (h : InPlaceUpdate d c) :
    ((World.accounting U).besides owned).Conserves 0 c fun _ => 0 := by
  cases h with
  | zipMutWith hf other => exact Array.conserves_zipMutWith hf other
  | cloneFrom hclone source =>
      rw [Array.cloneFrom_eq]
      exact Array.conserves_zipMutWith hclone source
  | cloneFromDefault hclone source =>
      rw [Array.cloneFrom_eq]
      exact Array.conserves_zipMutWith (Array.conserves_cloneFromElem hclone) source

/-- One update, in which at most one call of user code panics. The owner of the array
catches the panic and goes on with the array. -/
inductive UpdateStep (d : Destructor U) (s : Array X S × World U) : Array X S × World U → Prop
  where
  | returns {c : Exec (Array X S × World U) Unit} {t : Array X S × World U}
      (hupdate : InPlaceUpdate d c) (hc : c (s.1, { s.2 with fuse := 1 }) = .ok () t) :
      UpdateStep d s t
  | unwinds {c : Exec (Array X S × World U) Unit} {t : Array X S × World U}
      (hupdate : InPlaceUpdate d c) (hc : c (s.1, { s.2 with fuse := 1 }) = .panic t) :
      UpdateStep d s t

variable {s t : Array X S × World U} {frame : Multiset Element}

/-- How an update ends, where everything but the array is in `frame`. -/
theorem InPlaceUpdate.settles {c : Exec (Array X S × World U) Unit} (hupdate : InPlaceUpdate d c)
    (h : s.2.Owns (owned s.1 + frame)) :
    ((World.accounting U).besides owned).Settles frame (fun _ => 0)
      (s.1, { s.2 with fuse := 1 }) (c (s.1, { s.2 with fuse := 1 })) := by
  have howns : ((World.accounting U).besides owned).owns (0 + frame)
      (s.1, { s.2 with fuse := 1 }) := by
    change World.Owns (owned s.1 + (0 + frame)) _
    rw [zero_add]
    exact h.with_fuse 1
  exact hupdate.conserves howns

theorem UpdateStep.owns (hstep : UpdateStep d s t) (h : s.2.Owns (owned s.1 + frame)) :
    t.2.Owns (owned t.1 + frame) ∧ s.2.created ≤ t.2.created ∧ s.2.dropped ≤ t.2.dropped := by
  cases hstep with
  | returns hupdate hc =>
      have hsettles := hupdate.settles h
      rw [hc] at hsettles
      cases hsettles with
      | ok hown hlater =>
          rw [zero_add] at hown
          exact ⟨hown, hlater.created_le, hlater.dropped_le⟩
  | unwinds hupdate hc =>
      have hsettles := hupdate.settles h
      rw [hc] at hsettles
      cases hsettles with
      | panic hown hlater => exact ⟨hown, hlater.created_le, hlater.dropped_le⟩

theorem owns_of_updates (hrun : Relation.ReflTransGen (UpdateStep d) s t)
    (h : s.2.Owns (owned s.1 + frame)) :
    t.2.Owns (owned t.1 + frame) ∧ s.2.created ≤ t.2.created ∧ s.2.dropped ≤ t.2.dropped := by
  induction hrun with
  | refl => exact ⟨h, le_rfl, le_rfl⟩
  | tail _ hstep ih =>
      obtain ⟨hown, hcreated, hdropped⟩ := ih
      obtain ⟨hown', hcreated', hdropped'⟩ := hstep.owns hown
      exact ⟨hown', hcreated.trans hcreated', hdropped.trans hdropped'⟩

/-- After any sequence of updates, some of which unwound, the array owns all of its
elements, and every element that was overwritten was dropped once or handed over. Every
further update returns or unwinds, and so does dropping the array, after which no element
is owned but those of other values. -/
theorem updates_conserve_ownership (hrun : Relation.ReflTransGen (UpdateStep d) s t)
    (h : s.2.Owns (owned s.1 + frame)) :
    t.2.Owns (owned t.1 + frame) ∧
    (∀ x ∈ t.2.created, (owned t.1 + frame).count x + t.2.held.count x +
      t.2.dropped.count x = 1) ∧
    s.2.created ≤ t.2.created ∧ s.2.dropped ≤ t.2.dropped ∧
    (∀ c : Exec (Array X S × World U) Unit, InPlaceUpdate d c →
      (∃ u, c (t.1, { t.2 with fuse := 1 }) = .ok () u) ∨
        ∃ u, c (t.1, { t.2 with fuse := 1 }) = .panic u) ∧
    ∃ u, ((t.1.drop d.dropValue).run { t.2 with fuse := 1 } = .ok () u ∨
      (t.1.drop d.dropValue).run { t.2 with fuse := 1 } = .panic u) ∧ u.Owns frame := by
  obtain ⟨hown, hcreated, hdropped⟩ := owns_of_updates hrun h
  refine ⟨hown, fun x hx => hown.count_eq hx, hcreated, hdropped, ?_, ?_⟩
  · intro c hupdate
    have hsettles := hupdate.settles hown
    generalize c (t.1, { t.2 with fuse := 1 }) = r at hsettles
    cases hsettles with
    | @ok a u => exact .inl ⟨u, rfl⟩
    | @panic u => exact .inr ⟨u, rfl⟩
    | abort htwo => exact absurd htwo (Nat.not_succ_le_self 1)
  · have hsettles := Array.conserves_drop (d := d) t.1 (hown.with_fuse 1)
    generalize (t.1.drop d.dropValue).run { t.2 with fuse := 1 } = r at hsettles
    cases hsettles with
    | @ok a u hown' => exact ⟨u, .inl rfl, zero_add frame ▸ hown'⟩
    | @panic u hown' => exact ⟨u, .inr rfl, hown'⟩
    | abort htwo => exact absurd htwo (Nat.not_succ_le_self 1)

/-- The destructor of the first element that `clone_from` overwrites panics: its clone is in
place, and the second element is as it was. -/
theorem updates_conserve_ownership_unwinding :
    ∃ t : Array Element (.len 2) × World Unit,
      Relation.ReflTransGen (UpdateStep Destructor.mayPanic)
        (.new ⟨[⟨1⟩, ⟨2⟩], rfl⟩, ⟨{⟨1⟩, ⟨2⟩, ⟨3⟩, ⟨4⟩}, 0, 0, 0, ()⟩) t ∧
      t.1.flat = [⟨11⟩, ⟨2⟩] ∧ t.2.dropped = {⟨1⟩} ∧ t.2.Owns (owned t.1 + {⟨3⟩, ⟨4⟩}) := by
  have hclone : UpdateStep Destructor.mayPanic
      ((.new ⟨[⟨1⟩, ⟨2⟩], rfl⟩ : Array Element (.len 2)),
        (⟨{⟨1⟩, ⟨2⟩, ⟨3⟩, ⟨4⟩}, 0, 0, 0, ()⟩ : World Unit))
      (.new ⟨[⟨11⟩, ⟨2⟩], rfl⟩, ⟨{⟨11⟩, ⟨1⟩, ⟨2⟩, ⟨3⟩, ⟨4⟩}, 0, {⟨1⟩}, 0, ()⟩) :=
    .unwinds (.cloneFromDefault (fun _ => World.conserves_create)
      (.new ⟨[⟨3⟩, ⟨4⟩], rfl⟩)) rfl
  have hrun := Relation.ReflTransGen.refl.tail hclone
  exact ⟨_, hrun, rfl, rfl, (updates_conserve_ownership hrun ⟨rfl, by decide⟩).1⟩

end ConstArray
