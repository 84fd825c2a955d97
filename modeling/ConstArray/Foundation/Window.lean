import Mathlib.Data.List.Range
import Mathlib.Tactic.Basic

/-! # Address windows

Half-open ranges of addresses, and lists of windows that tile a window in order.
-/

namespace ConstArray.Foundation

/-- The addresses from `start` up to `start + len`. -/
structure Window where
  start : Nat
  len : Nat
  deriving DecidableEq, Repr

namespace Window

variable {v w : Window} {ws : List Window}

def stop (w : Window) : Nat := w.start + w.len

def Contains (w : Window) (a : Nat) : Prop := w.start ≤ a ∧ a < w.stop

/-- `v` is a part of `w`. -/
structure Inside (v w : Window) : Prop where
  start_le : w.start ≤ v.start
  stop_le : v.stop ≤ w.stop

/-- No address is in both windows. -/
def Disjoint (v w : Window) : Prop := ∀ a, v.Contains a → ¬ w.Contains a

theorem Inside.refl (w : Window) : w.Inside w := ⟨Nat.le_refl _, Nat.le_refl _⟩

theorem Inside.trans {u : Window} (h : u.Inside v) (k : v.Inside w) : u.Inside w :=
  ⟨Nat.le_trans k.start_le h.start_le, Nat.le_trans h.stop_le k.stop_le⟩

theorem Disjoint.of_stop_le (h : v.stop ≤ w.start) : v.Disjoint w := fun _ hv hw =>
  absurd (Nat.lt_of_lt_of_le hv.2 (Nat.le_trans h hw.1)) (Nat.lt_irrefl _)

/-- The windows follow each other from `start` to `stop` without a gap. -/
def TilesFrom : (start stop : Nat) → List Window → Prop
  | start, stop, [] => start = stop
  | start, stop, w :: ws => w.start = start ∧ TilesFrom w.stop stop ws

/-- The windows tile `w` in order. -/
def Tiles (ws : List Window) (w : Window) : Prop := TilesFrom w.start w.stop ws

theorem TilesFrom.start_le {start stop : Nat} (h : TilesFrom start stop ws) : start ≤ stop := by
  induction ws generalizing start with
  | nil => exact Nat.le_of_eq h
  | cons w ws ih => exact h.1 ▸ Nat.le_trans (Nat.le_add_right _ _) (ih h.2)

theorem TilesFrom.bounds {start stop : Nat} (h : TilesFrom start stop ws) (hv : v ∈ ws) :
    start ≤ v.start ∧ v.stop ≤ stop := by
  induction ws generalizing start with
  | nil => simp at hv
  | cons w ws ih =>
      obtain ⟨rfl, htail⟩ := h
      rcases List.mem_cons.mp hv with rfl | hv
      · exact ⟨Nat.le_refl _, htail.start_le⟩
      · exact ⟨Nat.le_trans (Nat.le_add_right _ _) (ih htail hv).1, (ih htail hv).2⟩

/-- Every tile is inside. -/
theorem Tiles.inside (h : Tiles ws w) (hv : v ∈ ws) : v.Inside w :=
  ⟨(h.bounds hv).1, (h.bounds hv).2⟩

theorem TilesFrom.pairwise {start stop : Nat} (h : TilesFrom start stop ws) :
    ws.Pairwise Disjoint := by
  induction ws generalizing start with
  | nil => exact .nil
  | cons w ws ih =>
      exact .cons (fun v hv => .of_stop_le (h.2.bounds hv).1) (ih h.2)

/-- Tiles are pairwise disjoint. -/
theorem Tiles.pairwise (h : Tiles ws w) : ws.Pairwise Disjoint := TilesFrom.pairwise h

/-- `n` windows of the same length, one after the other. -/
def blocks (start len n : Nat) : List Window :=
  (List.range n).map fun i => ⟨start + i * len, len⟩

theorem mem_blocks (start len : Nat) {n i : Nat} (hi : i < n) :
    ⟨start + i * len, len⟩ ∈ blocks start len n :=
  List.mem_map_of_mem (List.mem_range.mpr hi)

theorem tilesFrom_append {start mid stop : Nat} {vs : List Window} (h : TilesFrom start mid vs)
    (k : TilesFrom mid stop ws) : TilesFrom start stop (vs ++ ws) := by
  induction vs generalizing start with
  | nil => exact h ▸ k
  | cons v vs ih => exact ⟨h.1, ih h.2⟩

theorem tiles_blocks (start len n : Nat) : Tiles (blocks start len n) ⟨start, n * len⟩ := by
  induction n with
  | zero => simp [Tiles, blocks, TilesFrom, stop]
  | succ n ih =>
      rw [blocks, List.range_succ, List.map_append]
      refine tilesFrom_append ih ⟨rfl, ?_⟩
      change start + n * len + len = start + (n + 1) * len
      rw [Nat.succ_mul, Nat.add_assoc]

theorem tiles_pair (start m n : Nat) :
    Tiles [⟨start, m⟩, ⟨start + m, n⟩] ⟨start, m + n⟩ :=
  ⟨rfl, rfl, Nat.add_assoc start m n⟩

/-- The same window of addresses relative to `base`. -/
def shift (base : Nat) (w : Window) : Window := ⟨base + w.start, w.len⟩

theorem tiles_singleton (w : Window) : Tiles [w] w := ⟨rfl, rfl⟩

end Window

end ConstArray.Foundation
