import ConstArray.Array.Build
import ConstArray.View.Checked
import ConstArray.View.Owned

/-! # Chains of views

Views are taken of views, to any depth. A view denotes a window of the root
array's flat sequence that is computed from the operations alone; what one
operation returns tiles the window it was applied to.
-/

namespace ConstArray

open Foundation

variable {σ X : Type} {w : Nat}

/-- The element types of the views of an `Array<T, S>`: `T` itself, and the chunks
of chunked views. -/
inductive Elem where
  | root
  | array (S : ConcreteSize) (e : Elem)

namespace Elem

def ty : Elem → Ty
  | root => .elem
  | array S e => .arr S e.ty

/-- The number of root elements of a value. -/
def count (e : Elem) : Nat := e.ty.count

@[simp] theorem count_root : root.count = 1 := rfl

@[simp] theorem count_array (S : ConcreteSize) (e : Elem) :
    (array S e).count = S.count * e.count := Ty.count_arr S e.ty

/-- The lengths of all sizes in the type evaluate. -/
def Usable (w : Nat) : Elem → Prop
  | root => True
  | array S e => S.Evaluates w ∧ e.Usable w

end Elem

/-- A borrowed view. -/
inductive View where
  | ref (μ : Mutability) (e : Elem) (r : Ref μ e.ty)
  | slice (μ : Mutability) (e : Elem) (s : Slice μ e.ty)

namespace View

/-- The addresses that a view borrows. -/
def window : View → Window
  | ref _ _ r => r.window
  | slice _ _ s => s.window

def Usable (w : Nat) : View → Prop
  | ref _ e _ => e.Usable w
  | slice _ e _ => e.Usable w

/-- `&mut` views are exclusive. -/
def mutability : View → Mutability
  | ref μ _ _ | slice μ _ _ => μ

end View

/-- The view operations that apply to a view. Their proofs are valid, their
indices in bounds, and the sizes they introduce evaluate. -/
inductive ViewOp (w : Nat) : View → Type where
  | reborrow (e : Elem) (r : Ref .exclusive e.ty) : ViewOp w (.ref .exclusive e r)
  | asSlice (μ : Mutability) (S : ConcreteSize) (e : Elem) (r : Ref μ (.arr S e.ty)) :
      ViewOp w (.ref μ (.array S e) r)
  | cast (μ : Mutability) (S : ConcreteSize) (e : Elem) (r : Ref μ (.arr S e.ty))
      (S2 : ConcreteSize) (p : SameLen S S2) (h : S.count = S2.count) (hS2 : S2.Evaluates w) :
      ViewOp w (.ref μ (.array S e) r)
  | split (μ : Mutability) (A B : ConcreteSize) (e : Elem) (r : Ref μ (.arr (.sum A B) e.ty)) :
      ViewOp w (.ref μ (.array (.sum A B) e) r)
  | asChunks (μ : Mutability) (A B : ConcreteSize) (e : Elem)
      (r : Ref μ (.arr (.prod A B) e.ty)) : ViewOp w (.ref μ (.array (.prod A B) e) r)
  | index (μ : Mutability) (S : ConcreteSize) (e : Elem) (r : Ref μ (.arr S e.ty))
      (i : Nat) (hi : i < S.count) : ViewOp w (.ref μ (.array S e) r)
  | indexSlice (μ : Mutability) (e : Elem) (s : Slice μ e.ty) (i : Nat) (hi : i < s.len) :
      ViewOp w (.slice μ e s)
  | prefixArray (μ : Mutability) (S : ConcreteSize) (e : Elem) (r : Ref μ (.arr S e.ty))
      (P : ConcreteSize) (p : AtMost P S) (h : P.count ≤ S.count) (hP : P.Evaluates w) :
      ViewOp w (.ref μ (.array S e) r)
  | suffixArray (μ : Mutability) (S : ConcreteSize) (e : Elem) (r : Ref μ (.arr S e.ty))
      (P : ConcreteSize) (p : AtMost P S) (h : P.count ≤ S.count) (hP : P.Evaluates w) :
      ViewOp w (.ref μ (.array S e) r)
  | splitPrefix (μ : Mutability) (S : ConcreteSize) (e : Elem) (r : Ref μ (.arr S e.ty))
      (P : ConcreteSize) (p : AtMost P S) (h : P.count ≤ S.count) (hP : P.Evaluates w) :
      ViewOp w (.ref μ (.array S e) r)
  | splitSuffix (μ : Mutability) (S : ConcreteSize) (e : Elem) (r : Ref μ (.arr S e.ty))
      (P : ConcreteSize) (p : AtMost P S) (h : P.count ≤ S.count) (hP : P.Evaluates w) :
      ViewOp w (.ref μ (.array S e) r)
  | each (μ : Mutability) (S : ConcreteSize) (e : Elem) (r : Ref μ (.arr S e.ty)) :
      ViewOp w (.ref μ (.array S e) r)

/-- `Array::each_ref` and `each_mut`. -/
def Ref.each {t : Ty} {S : ConcreteSize} :
    (μ : Mutability) → Ref μ (.arr S t) → Exec σ (Array (Ref μ t) S)
  | .shared, r => Array.eachRef r
  | .exclusive, r => Array.eachMut r

theorem Ref.each_eq {t : Ty} {S : ConcreteSize} (μ : Mutability) (r : Ref μ (.arr S t)) :
    (r.each : Exec σ _) = Exec.ofOption (Array.ofFlat S (Array.elementRefs r)) := by
  cases μ with
  | shared => exact Array.eachRef_eq r
  | exclusive => exact Array.eachMut_eq r

namespace ViewOp

/-- The views that an operation returns. -/
def run (overflowChecks : Bool) : {v : View} → ViewOp w v → Exec σ (List View)
  | _, reborrow e r => pure [.ref .shared e ⟨r.addr⟩]
  | _, asSlice μ _ e r => pure [.slice μ e r.asSlice]
  | _, cast μ _ e r S2 p _ _ => do return [.ref μ (.array S2 e) (← r.cast w p)]
  | _, split μ A B e r => do
      let (fst, snd) ← r.split w
      return [.ref μ (.array A e) fst, .ref μ (.array B e) snd]
  | _, asChunks μ A B e r => do return [.ref μ (.array A (.array B e)) (← r.asChunks w)]
  | _, index μ _ e r i _ => do return [.ref μ e (← r.asSlice.index i)]
  | _, indexSlice μ e s i _ => do return [.ref μ e (← s.index i)]
  | _, prefixArray μ _ e r P p _ _ => do return [.ref μ (.array P e) (← r.prefixArray w p)]
  | _, suffixArray μ _ e r P p _ _ => do
      return [.ref μ (.array P e) (← r.suffixArray w overflowChecks p)]
  | _, splitPrefix μ _ e r P p _ _ => do
      let (initial, rest) ← r.splitPrefix w p
      return [.ref μ (.array P e) initial, .slice μ e rest]
  | _, splitSuffix μ _ e r P p _ _ => do
      let (rest, suffix) ← r.splitSuffix w overflowChecks p
      return [.slice μ e rest, .ref μ (.array P e) suffix]
  | _, each μ _ e r => do return (← r.each μ).flat.map (View.ref μ e)

/-- The windows that the returned views denote, when the operation is applied to a
view of the window `win`. -/
def windows : {v : View} → ViewOp w v → Window → List Window
  | _, reborrow .., win | _, asSlice .., win | _, cast .., win | _, asChunks .., win => [win]
  | _, split _ A B e _, win =>
      [⟨win.start, A.count * e.count⟩, ⟨win.start + A.count * e.count, B.count * e.count⟩]
  | _, index _ _ e _ i _, win | _, indexSlice _ e _ i _, win =>
      [⟨win.start + i * e.count, e.count⟩]
  | _, prefixArray _ _ e _ P _ _ _, win => [⟨win.start, P.count * e.count⟩]
  | _, suffixArray _ S e _ P _ _ _, win =>
      [⟨win.start + (S.count - P.count) * e.count, P.count * e.count⟩]
  | _, splitPrefix _ S e _ P _ _ _, win =>
      [⟨win.start, P.count * e.count⟩,
        ⟨win.start + P.count * e.count, (S.count - P.count) * e.count⟩]
  | _, splitSuffix _ S e _ P _ _ _, win =>
      [⟨win.start, (S.count - P.count) * e.count⟩,
        ⟨win.start + (S.count - P.count) * e.count, P.count * e.count⟩]
  | _, each _ S e _, win => Window.blocks win.start e.count S.count

/-- Views taken of an exclusive view are exclusive, those taken through a shared
reborrow are not. -/
def mutability : {v : View} → ViewOp w v → Mutability
  | _, reborrow .. => .shared
  | v, _ => v.mutability

/-- The operations that return one part of the view only. -/
def IsPart : {v : View} → ViewOp w v → Bool
  | _, index .. | _, indexSlice .. | _, prefixArray .. | _, suffixArray .. => true
  | _, _ => false

end ViewOp

/-! ## One step -/

namespace ViewOp

theorem exclusive_of {v : View} (op : ViewOp w v) (h : op.mutability = .exclusive) :
    v.mutability = .exclusive := by
  cases op with
  | reborrow => cases h
  | _ => exact h

theorem windows_shift {v : View} (op : ViewOp w v) (base : Nat) (win : Window) :
    op.windows (win.shift base) = (op.windows win).map (Window.shift base) := by
  cases op <;> simp [windows, Window.shift, Window.blocks, Nat.add_assoc]

/-- No operation panics, and the views it returns have the windows and the mutability
computed for it. -/
theorem run_spec (overflowChecks : Bool) {v : View} (op : ViewOp w v) (hv : v.Usable w) (s : σ) :
    ∃ views, op.run overflowChecks s = .ok views s ∧
      views.map View.window = op.windows v.window ∧
      ∀ u ∈ views, u.Usable w ∧ u.mutability = op.mutability := by
  cases op with
  | reborrow e r => exact ⟨_, rfl, rfl, List.forall_mem_singleton.mpr ⟨hv, rfl⟩⟩
  | asSlice μ S e r =>
      exact ⟨_, rfl, congrArg ([·]) r.window_asSlice, List.forall_mem_singleton.mpr ⟨hv.2, rfl⟩⟩
  | cast μ S e r S2 p h hS2 =>
      refine ⟨[.ref μ (.array S2 e) ⟨r.addr⟩], ?_, ?_,
        List.forall_mem_singleton.mpr ⟨⟨hS2, hv.2⟩, rfl⟩⟩
      · rw [run, Ref.cast_eq hv.1, if_pos h]
        rfl
      · simp [windows, View.window, Ref.window, Elem.ty, h]
  | split μ A B e r =>
      refine ⟨[.ref μ (.array A e) ⟨r.addr⟩, .ref μ (.array B e) ⟨r.addr + A.count * e.ty.count⟩],
        ?_, ?_, ?_⟩
      · rw [run, Ref.split_eq hv.1]
        rfl
      · simp [windows, View.window, Ref.window, Elem.ty, Elem.count]
      · exact List.forall_mem_cons.mpr ⟨⟨⟨hv.1.of_sum.1, hv.2⟩, rfl⟩,
          List.forall_mem_singleton.mpr ⟨⟨hv.1.of_sum.2, hv.2⟩, rfl⟩⟩
  | asChunks μ A B e r =>
      refine ⟨[.ref μ (.array A (.array B e)) ⟨r.addr⟩], ?_, ?_, ?_⟩
      · rw [run, Ref.asChunks_eq hv.1]
        rfl
      · simp [windows, View.window, Ref.window, Elem.ty, Nat.mul_assoc]
      · exact List.forall_mem_singleton.mpr ⟨⟨hv.1.of_prod.1, hv.1.of_prod.2, hv.2⟩, rfl⟩
  | index μ S e r i hi =>
      refine ⟨[.ref μ e ⟨r.addr + i * e.ty.count⟩], ?_, ?_,
        List.forall_mem_singleton.mpr ⟨hv.2, rfl⟩⟩
      · rw [run, Slice.index_of_lt (by exact hi)]
        rfl
      · simp [windows, View.window, Ref.window, Elem.count]
  | indexSlice μ e sl i hi =>
      refine ⟨[.ref μ e ⟨sl.addr + i * e.ty.count⟩], ?_, ?_,
        List.forall_mem_singleton.mpr ⟨hv, rfl⟩⟩
      · rw [run, Slice.index_of_lt hi]
        rfl
      · simp [windows, View.window, Ref.window, Slice.window, Elem.count]
  | prefixArray μ S e r P p h hP =>
      refine ⟨[.ref μ (.array P e) ⟨r.addr⟩], ?_, ?_,
        List.forall_mem_singleton.mpr ⟨⟨hP, hv.2⟩, rfl⟩⟩
      · rw [run, Ref.prefixArray, Ref.splitPrefix_eq hv.1, if_pos h]
        rfl
      · simp [windows, View.window, Ref.window, Elem.ty, Elem.count]
  | suffixArray μ S e r P p h hP =>
      refine ⟨[.ref μ (.array P e) ⟨r.addr + (S.count - P.count) * e.ty.count⟩], ?_, ?_,
        List.forall_mem_singleton.mpr ⟨⟨hP, hv.2⟩, rfl⟩⟩
      · rw [run, Ref.suffixArray, Ref.splitSuffix_eq hv.1 hP, if_pos h]
        rfl
      · simp [windows, View.window, Ref.window, Elem.ty, Elem.count]
  | splitPrefix μ S e r P p h hP =>
      refine ⟨[.ref μ (.array P e) ⟨r.addr⟩,
        .slice μ e ⟨r.addr + P.count * e.ty.count, S.count - P.count⟩], ?_, ?_, ?_⟩
      · rw [run, Ref.splitPrefix_eq hv.1, if_pos h]
        rfl
      · simp [windows, View.window, Ref.window, Slice.window, Elem.ty, Elem.count]
      · exact List.forall_mem_cons.mpr
          ⟨⟨⟨hP, hv.2⟩, rfl⟩, List.forall_mem_singleton.mpr ⟨hv.2, rfl⟩⟩
  | splitSuffix μ S e r P p h hP =>
      refine ⟨[.slice μ e ⟨r.addr, S.count - P.count⟩,
        .ref μ (.array P e) ⟨r.addr + (S.count - P.count) * e.ty.count⟩], ?_, ?_, ?_⟩
      · rw [run, Ref.splitSuffix_eq hv.1 hP, if_pos h]
        rfl
      · simp [windows, View.window, Ref.window, Slice.window, Elem.ty, Elem.count]
      · exact List.forall_mem_cons.mpr
          ⟨⟨hv.2, rfl⟩, List.forall_mem_singleton.mpr ⟨⟨hP, hv.2⟩, rfl⟩⟩
  | each μ S e r =>
      obtain ⟨refs, hof, hflat⟩ := Array.exists_ofFlat (S := S) (Array.length_elementRefs r)
      refine ⟨refs.flat.map (View.ref μ e), ?_, ?_, ?_⟩
      · rw [run, Ref.each_eq, hof]
        rfl
      · rw [hflat, Array.elementRefs]
        simp [windows, View.window, Ref.window, Window.blocks, Elem.count]
      · intro u hu
        obtain ⟨_, -, hr⟩ := List.mem_map.mp hu
        rw [← hr]
        exact ⟨hv.2, rfl⟩

/-- What an operation returns together tiles the view it is applied to. -/
theorem tiles_windows {v : View} (op : ViewOp w v) (hop : op.IsPart = false) {win : Window}
    (hlen : win.len = v.window.len) : Window.Tiles (op.windows win) win := by
  obtain ⟨start, len⟩ := win
  cases op with
  | index | indexSlice | prefixArray | suffixArray => cases hop
  | reborrow | asSlice | cast | asChunks => exact Window.tiles_singleton _
  | split μ A B e r =>
      have hpair := Window.tiles_pair start (A.count * e.count) (B.count * e.count)
      have htotal : len = A.count * e.count + B.count * e.count :=
        (hlen.trans (Elem.count_array _ e)).trans (Nat.add_mul ..)
      rwa [← htotal] at hpair
  | splitPrefix μ S e r P p h hP =>
      have hpair := Window.tiles_pair start (P.count * e.count) ((S.count - P.count) * e.count)
      have htotal : len = S.count * e.count := hlen.trans (Elem.count_array S e)
      rwa [← Nat.add_mul, Nat.add_sub_cancel' h, ← htotal] at hpair
  | splitSuffix μ S e r P p h hP =>
      have hpair := Window.tiles_pair start ((S.count - P.count) * e.count) (P.count * e.count)
      have htotal : len = S.count * e.count := hlen.trans (Elem.count_array S e)
      rwa [← Nat.add_mul, Nat.sub_add_cancel h, ← htotal] at hpair
  | each μ S e r =>
      have hblocks := Window.tiles_blocks start e.count S.count
      have htotal : len = S.count * e.count := hlen.trans (Elem.count_array S e)
      rwa [← htotal] at hblocks

/-- Every view that an operation returns lies inside the view it is applied to. -/
theorem windows_inside {v : View} (op : ViewOp w v) {win u : Window}
    (hlen : win.len = v.window.len) (hu : u ∈ op.windows win) : u.Inside win := by
  cases hop : op.IsPart with
  | false => exact (op.tiles_windows hop hlen).inside hu
  | true =>
      obtain ⟨start, len⟩ := win
      cases op with
      | reborrow | asSlice | cast | split | asChunks | splitPrefix | splitSuffix | each => cases hop
      | index μ S e r i hi =>
          have htotal : len = S.count * e.count := hlen.trans (Elem.count_array S e)
          have hmem := Window.mem_blocks start e.count hi
          rw [List.mem_singleton.mp hu, htotal]
          exact (Window.tiles_blocks start e.count S.count).inside hmem
      | indexSlice μ e s i hi =>
          have htotal : len = s.len * e.count := hlen
          have hmem := Window.mem_blocks start e.count hi
          rw [List.mem_singleton.mp hu, htotal]
          exact (Window.tiles_blocks start e.count s.len).inside hmem
      | prefixArray μ S e r P p h hP =>
          have htiles := (splitPrefix μ S e r P p h hP : ViewOp w _).tiles_windows rfl hlen
          rw [List.mem_singleton.mp hu]
          exact htiles.inside List.mem_cons_self
      | suffixArray μ S e r P p h hP =>
          have htiles := (splitSuffix μ S e r P p h hP : ViewOp w _).tiles_windows rfl hlen
          rw [List.mem_singleton.mp hu]
          exact htiles.inside (List.mem_cons_of_mem _ List.mem_cons_self)

theorem pairwise_of_isPart {v : View} (op : ViewOp w v) (hop : op.IsPart = true) (win : Window) :
    (op.windows win).Pairwise Window.Disjoint := by
  cases op with
  | reborrow | asSlice | cast | split | asChunks | splitPrefix | splitSuffix | each => cases hop
  | index | indexSlice | prefixArray | suffixArray => exact List.pairwise_singleton _ _

end ViewOp

/-! ## Chains -/

/-- The views that a chain of operations reaches from `root`, with the window of
the root's flat sequence that the operations of the chain compute. -/
inductive Reaches (σ : Type) (w : Nat) (overflowChecks : Bool) (root : View) :
    View → Window → Prop where
  | root : Reaches σ w overflowChecks root root ⟨0, root.window.len⟩
  | step {v : View} {win : Window} (h : Reaches σ w overflowChecks root v win)
      (op : ViewOp w v) {s s' : σ} {views : List View}
      (hrun : op.run overflowChecks s = .ok views s') {v' : View} {win' : Window}
      (hmem : (v', win') ∈ views.zip (op.windows win)) :
      Reaches σ w overflowChecks root v' win'

namespace Reaches

variable {checks : Bool} {root v : View} {win : Window}

/-- A reached view is usable, and denotes its window of the root. -/
structure Denotes (w : Nat) (root v : View) (win : Window) : Prop where
  usable : v.Usable w
  window_eq : v.window = win.shift root.window.start
  inside : win.Inside ⟨0, root.window.len⟩
  exclusive_root : v.mutability = .exclusive → root.mutability = .exclusive

theorem Denotes.len_eq (h : Denotes w root v win) : win.len = v.window.len := by
  rw [h.window_eq]
  rfl

/-- What an operation returns denotes the windows that are computed for it. -/
theorem Denotes.step (h : Denotes w root v win) (op : ViewOp w v) {s s' : σ}
    {views : List View} (hrun : op.run checks s = .ok views s') {v' : View} {win' : Window}
    (hmem : (v', win') ∈ views.zip (op.windows win)) : Denotes w root v' win' := by
  obtain ⟨views', hrun', hwindows, hreturned⟩ := op.run_spec checks h.usable s
  obtain ⟨rfl, rfl⟩ := Outcome.ok.inj (hrun.symm.trans hrun')
  rw [h.window_eq, op.windows_shift] at hwindows
  obtain ⟨husable, hmutability⟩ := hreturned v' (List.of_mem_zip hmem).1
  refine ⟨husable, ?_, (op.windows_inside h.len_eq (List.of_mem_zip hmem).2).trans h.inside,
    fun hv' => h.exclusive_root (op.exclusive_of (hmutability ▸ hv'))⟩
  obtain ⟨i, hi, hget⟩ := List.mem_iff_getElem.mp hmem
  rw [List.getElem_zip, Prod.mk.injEq] at hget
  have hview := congrArg (·[i]?) hwindows
  rw [List.length_zip] at hi
  simpa [hget.1, hget.2, show i < views.length by omega,
    show i < (op.windows win).length by omega] using hview

theorem denotes (hroot : root.Usable w) (h : Reaches σ w checks root v win) :
    Denotes w root v win := by
  induction h with
  | root => exact ⟨hroot, rfl, .refl _, id⟩
  | step _ op hrun hmem ih => exact ih.step op hrun hmem

end Reaches

/-! ## Writing -/

/-- Write through a `&mut T`. -/
def Ref.write (r : Ref .exclusive .elem) (y : X) : Exec (Mem X) Unit := fun m =>
  .ok () (m.write r.addr y)

/-- Write root element `j` of a value, as in `chunks[j / B][j % B] = y`. -/
def Ref.writeElem : (e : Elem) → Ref .exclusive e.ty → Nat → X → Exec (Mem X) Unit
  | .root, r, _, y => Ref.write r y
  | .array S e, r, j, y => do
      let inner ← (asSlice (S := S) r).index (j / e.count)
      writeElem e inner (j % e.count) y

/-- Write root element `j` of a view, which must be mutable. -/
def View.write : View → Nat → X → Option (Exec (Mem X) Unit)
  | .ref .exclusive e r, j, y => some (Ref.writeElem e r j y)
  | .slice .exclusive e s, j, y => some do
      let inner ← s.index (j / e.count)
      Ref.writeElem e inner (j % e.count) y
  | .ref .shared _ _, _, _ | .slice .shared _ _, _, _ => none

theorem View.exists_write {v : View} (hv : v.mutability = .exclusive) (j : Nat) (y : X) :
    ∃ write, v.write j y = some write := by
  cases v with
  | ref μ e r =>
      obtain rfl : μ = .exclusive := hv
      exact ⟨_, rfl⟩
  | slice μ e s =>
      obtain rfl : μ = .exclusive := hv
      exact ⟨_, rfl⟩

theorem View.write_shared {v : View} (hv : v.mutability = .shared) (j : Nat) (y : X) :
    v.write j y = none := by
  cases v with
  | ref μ e r =>
      obtain rfl : μ = .shared := hv
      rfl
  | slice μ e s =>
      obtain rfl : μ = .shared := hv
      rfl

/-- The position of an element by its block and its place in the block. -/
theorem block_lt {n k j : Nat} (hj : j < n * k) :
    j / k < n ∧ j % k < k ∧ j / k * k + j % k = j := by
  have hk : 0 < k := Nat.pos_of_mul_pos_left (Nat.zero_lt_of_lt hj)
  exact ⟨Nat.div_lt_of_lt_mul (Nat.mul_comm n k ▸ hj), Nat.mod_lt _ hk, Nat.div_add_mod' j k⟩

theorem Ref.writeElem_eq (e : Elem) (r : Ref .exclusive e.ty) {j : Nat} (hj : j < e.count) (y : X)
    (m : Mem X) : writeElem e r j y m = .ok () (m.write (r.addr + j) y) := by
  induction e generalizing j with
  | root =>
      obtain rfl : j = 0 := Nat.lt_one_iff.mp hj
      rfl
  | array S e ih =>
      rw [Elem.count_array] at hj
      obtain ⟨hblock, hplace, hposition⟩ := block_lt hj
      rw [writeElem, Slice.index_of_lt (by exact hblock), pure_bind, ih _ hplace]
      change Outcome.ok () (m.write (r.addr + j / e.count * e.count + j % e.count) y) = _
      rw [Nat.add_assoc, hposition]

/-- A write through element `j` of a mutable view goes to the address of that
element. -/
theorem View.write_eq (v : View) {j : Nat} (hj : j < v.window.len) (y : X) (m : Mem X)
    {write : Exec (Mem X) Unit} (hwrite : v.write j y = some write) :
    write m = .ok () (m.write (v.window.start + j) y) := by
  match v, hwrite with
  | .ref .exclusive e r, hwrite =>
      obtain rfl := Option.some.inj hwrite
      exact Ref.writeElem_eq e r hj y m
  | .slice .exclusive e s, hwrite =>
      obtain rfl := Option.some.inj hwrite
      obtain ⟨hblock, hplace, hposition⟩ := block_lt (n := s.len) (k := e.count) hj
      rw [Slice.index_of_lt hblock, pure_bind, Ref.writeElem_eq e _ hplace]
      change Outcome.ok () (m.write (s.addr + j / e.count * e.count + j % e.count) y) = _
      rw [Nat.add_assoc, hposition]
      rfl

/-- A view of a part of the root writes to the root. -/
theorem View.write_shift (v : View) {part : Window} {base : Nat}
    (hwindow : v.window = part.shift base) {j : Nat} (hj : j < part.len) (y : X) (m : Mem X)
    {write : Exec (Mem X) Unit} (hwrite : v.write j y = some write) :
    write m = .ok () (m.write (base + (part.start + j)) y) := by
  have haddr : v.window.start + j = base + (part.start + j) := by
    rw [hwindow]
    exact Nat.add_assoc ..
  have hlen : j < v.window.len := by
    rw [hwindow]
    exact hj
  rw [v.write_eq hlen y m hwrite, haddr]

/-- Whatever chain of operations reached a view: it denotes the window computed for
the chain, no further operation on it panics, the views that one returns together
are disjoint and tile it in order, and are exclusive if it is and the operation is no
shared reborrow. Every exclusive view can be written, and a write through it changes
one element of the root. -/
theorem views_compose {μ : Mutability} {S : ConcreteSize} (checks : Bool) (hS : S.Evaluates w)
    (a : Ref μ (.arr S .elem)) {v : View} {win : Window}
    (h : Reaches σ w checks (.ref μ (.array S .root) a) v win) :
    v.window = win.shift a.addr ∧ win.stop ≤ S.count ∧
    (v.mutability = .exclusive → μ = .exclusive) ∧
    (∀ (op : ViewOp w v) (s : σ), ∃ views, op.run checks s = .ok views s ∧
      views.map View.window = (op.windows win).map (Window.shift a.addr) ∧
      (∀ u ∈ views, u.mutability = op.mutability) ∧
      (∀ u ∈ op.windows win, u.Inside win) ∧
      (op.windows win).Pairwise Window.Disjoint ∧
      (op.IsPart = false → Window.Tiles (op.windows win) win)) ∧
    (∀ (μ' : Mutability) (A : ConcreteSize) (e : Elem) (r : Ref μ' (.arr A e.ty)),
      v = .ref μ' (.array A e) r →
      Window.Tiles ((List.range A.count).map fun i => ⟨win.start + i * e.count, e.count⟩) win) ∧
    (∀ (j : Nat) (y : X), j < win.len →
      (v.mutability = .shared → v.write j y = none) ∧
      (v.mutability = .exclusive → ∃ write, v.write j y = some write ∧
        ∀ (m : Mem X) (x : Array X S), a.read m = some x →
          ∃ m', write m = .ok () m' ∧ (∀ b ≠ a.addr + (win.start + j), m' b = m b) ∧
            ∃ x', a.read m' = some x' ∧ x'.flat = x.flat.set (win.start + j) y)) := by
  have hroot : (View.ref μ (.array S .root) a).Usable w := ⟨hS, trivial⟩
  have hdenotes := h.denotes hroot
  have hstop : win.stop ≤ S.count := by
    simpa [Window.stop, View.window, Ref.window, Elem.ty, Ty.count] using hdenotes.inside.stop_le
  refine ⟨hdenotes.window_eq, hstop, hdenotes.exclusive_root, ?_, ?_, ?_⟩
  · intro op s
    obtain ⟨views, hrun, hwindows, hreturned⟩ := op.run_spec checks hdenotes.usable s
    rw [hdenotes.window_eq, op.windows_shift] at hwindows
    refine ⟨views, hrun, hwindows, fun u hu => (hreturned u hu).2,
      fun u hu => op.windows_inside hdenotes.len_eq hu, ?_,
      fun hop => op.tiles_windows hop hdenotes.len_eq⟩
    cases hop : op.IsPart with
    | false => exact (op.tiles_windows hop hdenotes.len_eq).pairwise
    | true => exact op.pairwise_of_isPart hop win
  · rintro μ' A e r rfl
    exact (ViewOp.each μ' A e r : ViewOp w _).tiles_windows rfl hdenotes.len_eq
  · intro j y hj
    refine ⟨fun hv => View.write_shared hv j y, ?_⟩
    intro hv
    obtain ⟨write, hwrite⟩ := View.exists_write hv j y
    refine ⟨write, hwrite, ?_⟩
    intro m x hx
    exact ⟨_, v.write_shift hdenotes.window_eq hj y m hwrite, fun b hb => if_neg hb,
      Ref.read_write hx (win.start + j) y⟩

/-- A write to the middle of the second row of a matrix of two rows and three
columns. -/
theorem views_compose_row :
    ∃ write, (View.ref .exclusive (.array (.len 3) .root) ⟨103⟩).write 1 9 = some write ∧
      ∃ m', write (fun b => some (b - 99)) = .ok () m' ∧
        ∃ x', (⟨100⟩ : Ref .exclusive (.arr (.prod (.len 2) (.len 3)) .elem)).read m' = some x' ∧
          x'.flat = [1, 2, 3, 4, 9, 6] := by
  have hchunks : Reaches Unit 8 true
      (.ref .exclusive (.array (.prod (.len 2) (.len 3)) .root) ⟨100⟩)
      (.ref .exclusive (.array (.len 2) (.array (.len 3) .root)) ⟨100⟩) ⟨0, 6⟩ :=
    .step .root (.asChunks .exclusive (.len 2) (.len 3) .root ⟨100⟩) (s := ()) rfl (.head _)
  have hrow : Reaches Unit 8 true
      (.ref .exclusive (.array (.prod (.len 2) (.len 3)) .root) ⟨100⟩)
      (.ref .exclusive (.array (.len 3) .root) ⟨103⟩) ⟨3, 3⟩ :=
    hchunks.step (.index .exclusive (.len 2) (.array (.len 3) .root) ⟨100⟩ 1 (by decide))
      (s := ()) rfl (.head _)
  obtain ⟨-, -, -, -, -, hwrites⟩ := views_compose (X := Nat) true (by decide) ⟨100⟩ hrow
  obtain ⟨write, hwrite, heffect⟩ := (hwrites 1 9 (by decide)).2 rfl
  obtain ⟨x, hread, hflat⟩ := @Ref.exists_read Nat (.prod (.len 2) (.len 3))
    (fun b => some (b - 99)) 100 .exclusive [1, 2, 3, 4, 5, 6] rfl rfl
  obtain ⟨m', hm', -, x', hread', hflat'⟩ := heffect _ x hread
  refine ⟨write, hwrite, m', hm', x', hread', ?_⟩
  rw [hflat', hflat]
  rfl

end ConstArray
