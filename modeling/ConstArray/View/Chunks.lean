import ConstArray.View.Chain

/-! # Chunks of a slice

`slice_as_chunks` cuts a slice of any length: the full chunks, and a rest that is
shorter than a chunk. Where `as_chunks` applies as well, both cut at the same
places.
-/

namespace ConstArray

open Foundation

variable {σ X : Type} {w : Nat} {μ : Mutability} {e : Elem} {A B S : ConcreteSize}

namespace Slice

variable {t : Ty}

/-- `s[start..stop]`. -/
def range (s : Slice μ t) (start stop : Nat) : Slice μ t :=
  ⟨s.addr + start * t.count, stop - start⟩

/-- The window of a range, relative to the slice. -/
def rangeWindow (t : Ty) (start stop : Nat) : Window :=
  ⟨start * t.count, (stop - start) * t.count⟩

theorem rangeWindow_stop_le {s : Slice μ t} {start stop : Nat} (hle : start ≤ stop)
    (h : stop ≤ s.len) : (rangeWindow t start stop).stop ≤ s.window.len := by
  change start * t.count + (stop - start) * t.count ≤ s.len * t.count
  rw [← Nat.add_mul, Nat.add_sub_cancel' hle]
  exact Nat.mul_le_mul_right _ h

/-- The range of a chunk. -/
theorem range_chunk (s : Slice μ t) (size i : Nat) :
    s.range (i * size) ((i + 1) * size) = ⟨s.addr + i * (size * t.count), size⟩ := by
  rw [range, Nat.succ_mul, Nat.add_sub_cancel_left, Nat.mul_assoc]

/-- The ranges of the chunks and of the rest follow each other. -/
theorem tiles_chunks (s : Slice μ t) (size : Nat) :
    Window.Tiles
      (((List.range (s.len / size)).map fun i => (s.range (i * size) ((i + 1) * size)).window) ++
        [(s.range (s.len / size * size) s.len).window]) s.window := by
  have hblocks := Window.tiles_blocks s.addr (size * t.count) (s.len / size)
  have heach : ((List.range (s.len / size)).map
      fun i => (s.range (i * size) ((i + 1) * size)).window) =
        Window.blocks s.addr (size * t.count) (s.len / size) := by
    apply List.map_congr_left
    intro i _
    rw [range_chunk, window]
  rw [heach]
  refine Window.tilesFrom_append hblocks ⟨?_, ?_⟩
  · change s.addr + s.len / size * size * t.count = s.addr + s.len / size * (size * t.count)
    rw [Nat.mul_assoc]
  · have hle : s.len / size * size * t.count ≤ s.len * t.count :=
      Nat.mul_le_mul_right _ (Nat.div_mul_le_self _ _)
    change s.addr + s.len / size * size * t.count + (s.len - s.len / size * size) * t.count =
      s.addr + s.len * t.count
    rw [Nat.sub_mul, Nat.add_assoc, Nat.add_sub_cancel' hle]

/-- The chunk at `i` is a range of the slice. -/
theorem index_chunks (s : Slice μ t) {n i : Nat} (hi : i < n) :
    ∃ chunk, ((⟨s.addr, n⟩ : Slice μ (.arr S t)).index i : Exec σ _) = pure chunk ∧
      chunk.asSlice = s.range (i * S.count) ((i + 1) * S.count) := by
  refine ⟨_, index_of_lt hi, ?_⟩
  rw [Ref.asSlice_eq, range_chunk, Ty.count_arr]

end Slice

/-! ## Writing through a part -/

/-- Writing root element `k` of `v` sets root element `start + k` of the window
`win`, and nothing else. -/
def View.WritesInto (X : Type) (v : View) (win : Window) (start : Nat) : Prop :=
  ∀ k < v.window.len, ∀ y : X, ∃ write, v.write k y = some write ∧ start + k < win.len ∧
    ∀ m : Mem X, ∃ m', write m = .ok () m' ∧
      m'.slice win.start win.len = (m.slice win.start win.len).set (start + k) (some y) ∧
      ∀ b ≠ win.start + (start + k), m' b = m b

/-- A mutable view of a part writes into the whole. -/
theorem View.writesInto {v : View} {win : Window} (part : Window)
    (hv : v.mutability = .exclusive) (hwindow : v.window = part.shift win.start)
    (hstop : part.stop ≤ win.len) : v.WritesInto X win part.start := by
  intro k hk y
  obtain ⟨write, hwrite⟩ := View.exists_write hv k y
  have hpart : k < part.len := by
    rwa [hwindow] at hk
  refine ⟨write, hwrite, ?_, ?_⟩
  · unfold Window.stop at hstop
    omega
  · intro m
    exact ⟨_, v.write_shift hwindow hpart y m hwrite, Mem.slice_write .., fun b hb => if_neg hb⟩

/-- A slice is cut into as many full chunks as fit, and the rest. Cutting the flat
slice of a `Prod` leaves no rest, and gives the chunks of `as_chunks`. -/
theorem slice_as_chunks_partitions (w : Nat) (overflowChecks : Bool) (μ : Mutability) :
    (∀ (e : Elem) (S : ConcreteSize) (s : Slice μ e.ty), S.Evaluates w → 1 ≤ S.count →
      s.len < 2 ^ w →
      ∃ (chunks : Slice μ (.arr S e.ty)) (rest : Slice μ e.ty),
        (s.asChunks w overflowChecks S : Option (Exec σ _)) = some (pure (chunks, rest)) ∧
        chunks.len = s.len / S.count ∧ rest.len = s.len % S.count ∧
        rest = s.range (s.len / S.count * S.count) s.len ∧
        (∀ i < chunks.len, ∃ chunk, (chunks.index i : Exec σ _) = pure chunk ∧
          chunk.asSlice = s.range (i * S.count) ((i + 1) * S.count) ∧
          (μ = .exclusive →
            (View.ref μ (.array S e) chunk).WritesInto X s.window (i * S.count * e.count))) ∧
        (μ = .exclusive →
          (View.slice μ e rest).WritesInto X s.window (s.len / S.count * S.count * e.count)) ∧
        Window.Tiles (((List.range chunks.len).map
            fun i => (s.range (i * S.count) ((i + 1) * S.count)).window) ++ [rest.window])
          s.window ∧
        (((List.range chunks.len).map
            fun i => (s.range (i * S.count) ((i + 1) * S.count)).window) ++
          [rest.window]).Pairwise Window.Disjoint) ∧
    (∀ (t : Ty) (A B : ConcreteSize) (a : Ref μ (.arr (.prod A B) t)),
      (Size.prod A B).Evaluates w → 1 ≤ B.count →
      ∃ (chunks : Slice μ (.arr B t)) (rest : Slice μ t) (c : Ref μ (.arr A (.arr B t))),
        (a.asSlice.asChunks w overflowChecks B : Option (Exec σ _)) =
          some (pure (chunks, rest)) ∧
        rest.len = 0 ∧ (a.asChunks w : Exec σ _) = pure c ∧ c.asSlice = chunks) := by
  constructor
  · intro e S s hS hpos hlen
    have hle : s.len / S.count * S.count ≤ s.len := Nat.div_mul_le_self _ _
    have hrest : s.len % S.count = s.len - s.len / S.count * S.count := by
      rw [Nat.mul_comm, Nat.mod_def]
    have htiles := s.tiles_chunks S.count
    refine ⟨_, _, Slice.asChunks_eq hS hpos hlen, rfl, rfl, ?_, ?_, ?_, ?_, ?_⟩
    · rw [Slice.range, hrest]
    · intro i hi
      obtain ⟨chunk, hindex, hslice⟩ := Slice.index_chunks (S := S) (σ := σ) s hi
      refine ⟨chunk, hindex, hslice, ?_⟩
      intro hμ
      have hstop : (i + 1) * S.count ≤ s.len :=
        Nat.le_trans (Nat.mul_le_mul_right _ hi) hle
      have hwindow : chunk.window = _ := chunk.window_asSlice.symm.trans (congrArg _ hslice)
      exact View.writesInto (Slice.rangeWindow e.ty _ _) hμ hwindow
        (Slice.rangeWindow_stop_le (Nat.mul_le_mul_right _ (Nat.le_succ i)) hstop)
    · intro hμ
      refine View.writesInto (Slice.rangeWindow e.ty _ s.len) hμ ?_
        (Slice.rangeWindow_stop_le hle (Nat.le_refl _))
      change Slice.window _ = _
      rw [hrest]
      rfl
    · rw [hrest]
      exact htiles
    · rw [hrest]
      exact htiles.pairwise
  · intro t A B a hAB hpos
    have hdiv : (Size.prod A B).count / B.count = A.count := Nat.mul_div_cancel _ hpos
    have hmod : (Size.prod A B).count % B.count = 0 := Nat.mul_mod_left _ _
    refine ⟨_, _, _, Slice.asChunks_eq hAB.of_prod.2 hpos hAB.count_lt, hmod,
      a.asChunks_eq hAB, ?_⟩
    rw [Ref.asSlice_eq, Ref.asSlice_eq, hdiv]

/-- The longest slice on an eight-bit target, in chunks of sixteen. -/
theorem slice_as_chunks_partitions_max :
    ∃ chunks rest, ((⟨0, 255⟩ : Slice .shared .elem).asChunks 8 true (.len 16) :
        Option (Exec Unit _)) = some (pure (chunks, rest)) ∧ chunks.len = 15 ∧ rest.len = 15 := by
  obtain ⟨chunks, rest, hrun, hchunks, hrest, -⟩ :=
    (slice_as_chunks_partitions (σ := Unit) (X := Unit) 8 true .shared).1 .root (.len 16) ⟨0, 255⟩
      (by decide) (by decide) (by decide)
  exact ⟨chunks, rest, hrun, hchunks, hrest⟩

end ConstArray
