import ConstArray.Array.Consume

/-! # Casts along the lemmas regroup

A cast along a lemma of `SameLen` changes how the elements are grouped, never their
order. It commutes with concatenating, splitting and cutting into chunks as the two
sides of the lemma suggest.
-/

namespace ConstArray

open Foundation

variable {σ X : Type} {A B C S S2 S3 : ConcreteSize}

namespace Array

/-- The halves of an array of chunks are the chunks of the halves. -/
theorem parts_intoChunks {x : Array X (.prod (.sum A B) C)}
    {y : Array X (.sum (.prod A C) (.prod B C))} (hxy : y.flat = x.flat) :
    ∃ c d, (x.intoChunks >>= parts) = some (c, d) ∧
      (do let (fst, snd) ← y.parts; return (← fst.intoChunks, ← snd.intoChunks)) =
        some (c, d) := by
  obtain ⟨fst, snd, hparts, hy⟩ := exists_parts y
  obtain ⟨c, hc, hcflat⟩ := exists_intoChunks fst
  obtain ⟨d, hd, hdflat⟩ := exists_intoChunks snd
  obtain ⟨chunks, -, hchunks⟩ := exists_ofFlat (S := .sum A B) (l := c.flat ++ d.flat) (by simp)
  have hflat : chunks.flat.flatMap flat = x.flat := by
    rw [hchunks, List.flatMap_append, hcflat, hdflat, ← hy, hxy]
  refine ⟨c, d, ?_, ?_⟩
  · rw [intoChunks_eq_some.mpr hflat]
    exact parts_eq_some.mpr hchunks
  · rw [hparts]
    change (do return (← fst.intoChunks, ← snd.intoChunks)) = some (c, d)
    rw [hc, hd]
    rfl

/-- Every chunk of a product can be cut into chunks itself. -/
theorem exists_intoChunks_each (chunks : List (Array X (.prod A B))) :
    ∃ cs, List.Forall₂ (fun x c => x.intoChunks = some c) chunks cs ∧
      cs.flatMap (fun c => c.flat.flatMap flat) = chunks.flatMap flat := by
  induction chunks with
  | nil => exact ⟨[], .nil, rfl⟩
  | cons x chunks ih =>
      obtain ⟨c, hc, hflat⟩ := exists_intoChunks x
      obtain ⟨cs, hcs, hrest⟩ := ih
      exact ⟨c :: cs, .cons hc hcs, by rw [List.flatMap_cons, List.flatMap_cons, hflat, hrest]⟩

/-- Chunks of chunks: outer blocks that are cut again are the blocks of the inner
cut. -/
theorem intoChunks_intoChunks {x : Array X (.prod (.prod A B) C)}
    {y : Array X (.prod A (.prod B C))} (hxy : y.flat = x.flat)
    (unreachable : Exec σ (Array (Array X C) B)) (dropX : Array X (.prod B C) → Dtor σ)
    (dropY : Array (Array X C) B → Dtor σ) :
    ∃ r, (x.intoChunks >>= intoChunks) = some r ∧
      (do
        (← Exec.ofOption y.intoChunks).map unreachable dropX dropY
          fun c => Exec.ofOption c.intoChunks) = (pure r : Exec σ _) := by
  obtain ⟨blocks, hblocks, hblocksFlat⟩ := exists_intoChunks y
  obtain ⟨cs, hcs, hcsFlat⟩ := exists_intoChunks_each blocks.flat
  obtain ⟨r, hr, hrFlat⟩ := exists_ofFlat (S := A) (l := cs) (by
    rw [← hcs.length_eq, length_flat])
  obtain ⟨chunks, -, hchunks⟩ := exists_ofFlat (S := .prod A B) (length_flatMap_flat r)
  have hflat : chunks.flat.flatMap flat = x.flat := by
    rw [hchunks, List.flatMap_assoc, hrFlat, hcsFlat, hblocksFlat, hxy]
  refine ⟨r, ?_, ?_⟩
  · rw [intoChunks_eq_some.mpr hflat]
    exact intoChunks_eq_some.mpr hchunks.symm
  · have hcalls : List.Forall₂
        (fun c d => (Exec.ofOption c.intoChunks : Exec σ (Array (Array X C) B)) = pure d)
        blocks.flat cs := hcs.imp fun c d hcd => by rw [hcd, Exec.ofOption_some]
    rw [hblocks, Exec.ofOption_some, pure_bind, map_eq, Exec.mapOwned_pure dropX dropY hcalls,
      pure_bind, List.nil_append, hr, Exec.ofOption_some]

theorem concat_assoc (a : Array X A) (b : Array X B) (c : Array X C) :
    ∃ r, (do (← (← a.concat b).concat c).cast .sumAssoc) = some r ∧
      (do a.concat (← b.concat c)) = some r := by
  obtain ⟨ab, hab, habFlat⟩ := exists_ofFlat (S := .sum A B) (l := a.flat ++ b.flat) (by simp)
  obtain ⟨bc, hbc, hbcFlat⟩ := exists_ofFlat (S := .sum B C) (l := b.flat ++ c.flat) (by simp)
  obtain ⟨abc, habc, habcFlat⟩ := exists_ofFlat (S := .sum (.sum A B) C)
    (l := ab.flat ++ c.flat) (by simp)
  obtain ⟨r, hr, hrFlat⟩ := exists_cast (SameLen.sumAssoc (A := A) (B := B) (C := C))
    (Nat.add_assoc ..) abc
  refine ⟨r, ?_, ?_⟩
  · simp only [concat_eq, hab, habc, Option.bind_eq_bind, Option.bind_some, hr]
  · simp only [concat_eq, hbc, Option.bind_eq_bind, Option.bind_some, ofFlat_eq_some]
    rw [hrFlat, habcFlat, habFlat, hbcFlat, List.append_assoc]

theorem flat_empty (e : Array X (.len 0)) : e.flat = [] :=
  List.eq_nil_of_length_eq_zero e.length_flat

theorem empty_concat (e : Array X (.len 0)) (a : Array X A) :
    (do (← e.concat a).cast .sumZeroLeft) = some a := by
  obtain ⟨c, hc, hflat⟩ := exists_ofFlat (S := .sum (.len 0) A) (l := e.flat ++ a.flat) (by simp)
  rw [concat_eq, hc]
  have hcount : (Size.sum (.len 0) A).count = A.count := Nat.zero_add _
  change c.cast .sumZeroLeft = some a
  rw [cast_eq_some hcount, hflat, flat_empty, List.nil_append]

theorem concat_empty (a : Array X A) (e : Array X (.len 0)) :
    (do (← a.concat e).cast .sumZeroRight) = some a := by
  obtain ⟨c, hc, hflat⟩ := exists_ofFlat (S := .sum A (.len 0)) (l := a.flat ++ e.flat) (by simp)
  rw [concat_eq, hc]
  have hcount : (Size.sum A (.len 0)).count = A.count := Nat.add_zero _
  change c.cast .sumZeroRight = some a
  rw [cast_eq_some hcount, hflat, flat_empty, List.append_nil]

/-- The cast of a single chunk is the chunk. -/
theorem cast_prodOneLeft (x : Array X (.prod (.len 1) A)) :
    ∃ c y, x.intoChunks = some c ∧ x.cast .prodOneLeft = some y ∧ c.flat = [y] := by
  obtain ⟨c, hc, hflat⟩ := exists_intoChunks x
  obtain ⟨y, hy⟩ := List.length_eq_one_iff.mp (c.length_flat.trans (Size.count_len 1))
  refine ⟨c, y, hc, (cast_eq_some (Nat.one_mul _)).mpr ?_, hy⟩
  rw [← hflat, hy, List.flatMap_singleton]

/-- Chunks of one element each are the elements. -/
theorem map_flat_of_len_one (chunks : List (Array X (.len 1))) :
    chunks.map flat = (chunks.flatMap flat).map fun e => [e] := by
  induction chunks with
  | nil => rfl
  | cons c chunks ih =>
      obtain ⟨e, he⟩ := List.length_eq_one_iff.mp (c.length_flat.trans (Size.count_len 1))
      rw [List.map_cons, List.flatMap_cons, he, List.map_append, ih]
      rfl

theorem cast_prodOneRight (x : Array X (.prod A (.len 1))) :
    ∃ c y, x.intoChunks = some c ∧ x.cast .prodOneRight = some y ∧
      c.flat.map flat = y.flat.map fun e => [e] := by
  obtain ⟨c, hc, hflat⟩ := exists_intoChunks x
  obtain ⟨y, hy, hyFlat⟩ := exists_cast (SameLen.prodOneRight (A := A)) (Nat.mul_one _) x
  exact ⟨c, y, hc, hy, by rw [map_flat_of_len_one, hflat, hyFlat]⟩

theorem cast_sumComm (x : Array X (.sum A B)) :
    ∃ y fst snd, x.cast .sumComm = some y ∧ y.parts = some (fst, snd) ∧
      fst.flat ++ snd.flat = x.flat := by
  obtain ⟨y, hy, hyFlat⟩ := exists_cast (SameLen.sumComm (A := A) (B := B)) (Nat.add_comm ..) x
  obtain ⟨fst, snd, hparts, hflat⟩ := exists_parts y
  exact ⟨y, fst, snd, hy, hparts, by rw [← hflat, hyFlat]⟩

theorem cast_prodComm (x : Array X (.prod A B)) :
    ∃ y c, x.cast .prodComm = some y ∧ y.intoChunks = some c ∧
      c.flat.flatMap flat = x.flat := by
  obtain ⟨y, hy, hyFlat⟩ := exists_cast (SameLen.prodComm (A := A) (B := B)) (Nat.mul_comm ..) x
  obtain ⟨c, hc, hflat⟩ := exists_intoChunks y
  exact ⟨y, c, hy, hc, by rw [hflat, hyFlat]⟩

theorem cast_distribLeft (x : Array X (.prod A (.sum B C))) :
    ∃ y fst snd c d, x.cast .distribLeft = some y ∧ y.parts = some (fst, snd) ∧
      fst.intoChunks = some c ∧ snd.intoChunks = some d ∧ fst.flat ++ snd.flat = x.flat ∧
      c.flat.flatMap flat ++ d.flat.flatMap flat = x.flat := by
  obtain ⟨y, hy, hyFlat⟩ := exists_cast (SameLen.distribLeft (A := A) (B := B) (C := C))
    (Nat.mul_add ..) x
  obtain ⟨fst, snd, hparts, hflat⟩ := exists_parts y
  obtain ⟨c, hc, hcFlat⟩ := exists_intoChunks fst
  obtain ⟨d, hd, hdFlat⟩ := exists_intoChunks snd
  have hx : fst.flat ++ snd.flat = x.flat := by rw [← hflat, hyFlat]
  exact ⟨y, fst, snd, c, d, hy, hparts, hc, hd, hx, by rw [hcFlat, hdFlat, hx]⟩

/-- Casts depend on the sizes only, and compose. -/
theorem cast_cast {w : Nat} (d d' : SameLen.Derivation w S S2) (e : SameLen.Derivation w S2 S3)
    (a : Array X S) :
    a.cast d.proof = a.cast d'.proof ∧
      ∃ r, (do (← a.cast d.proof).cast e.proof) = some r ∧
        a.cast (d.proof.trans e.proof) = some r := by
  have hd : S.count = S2.count := d.holds Empty.elim
  have he : S2.count = S3.count := e.holds Empty.elim
  obtain ⟨b, hb, hbFlat⟩ := exists_cast d.proof hd a
  obtain ⟨r, hr, hrFlat⟩ := exists_cast e.proof he b
  refine ⟨(cast_eq d.proof hd a).trans (cast_eq d'.proof hd a).symm, r, ?_, ?_⟩
  · rw [hb]
    exact hr
  · rw [cast_eq_some (hd.trans he), hrFlat, hbFlat]

/-- Casts along the lemmas agree with regrouping by the structural conversions. -/
theorem lemma_casts_regroup :
    (∀ (A B C : ConcreteSize) (a : Array X A) (b : Array X B) (c : Array X C),
      ∃ r, (do (← (← a.concat b).concat c).cast .sumAssoc) = some r ∧
        (do a.concat (← b.concat c)) = some r) ∧
    (∀ (A : ConcreteSize) (a : Array X A) (e : Array X (.len 0)),
      (do (← e.concat a).cast .sumZeroLeft) = some a ∧
      (do (← a.concat e).cast .sumZeroRight) = some a) ∧
    (∀ (A B C : ConcreteSize) (x : Array X (.prod (.sum A B) C)),
      ∃ c d, (x.intoChunks >>= parts) = some (c, d) ∧
        (do
          let (fst, snd) ← (← x.cast .distribRight).parts
          return (← fst.intoChunks, ← snd.intoChunks)) = some (c, d)) ∧
    (∀ (A B C : ConcreteSize) (x : Array X (.prod (.prod A B) C))
      (unreachable : Exec σ (Array (Array X C) B)) (dropX : Array X (.prod B C) → Dtor σ)
      (dropY : Array (Array X C) B → Dtor σ),
      ∃ r, (x.intoChunks >>= intoChunks) = some r ∧
        (do
          (← Exec.ofOption (x.cast .prodAssoc >>= intoChunks)).map unreachable dropX dropY
            fun c => Exec.ofOption c.intoChunks) = (pure r : Exec σ _)) ∧
    (∀ (A : ConcreteSize) (x : Array X (.prod (.len 1) A)),
      ∃ c y, x.intoChunks = some c ∧ x.cast .prodOneLeft = some y ∧ c.flat = [y]) ∧
    (∀ (A : ConcreteSize) (x : Array X (.prod A (.len 1))),
      ∃ c y, x.intoChunks = some c ∧ x.cast .prodOneRight = some y ∧
        c.flat.map flat = y.flat.map fun e => [e]) ∧
    (∀ (A B : ConcreteSize) (x : Array X (.sum A B)),
      ∃ y fst snd, x.cast .sumComm = some y ∧ y.parts = some (fst, snd) ∧
        fst.flat ++ snd.flat = x.flat) ∧
    (∀ (A B : ConcreteSize) (x : Array X (.prod A B)),
      ∃ y c, x.cast .prodComm = some y ∧ y.intoChunks = some c ∧
        c.flat.flatMap flat = x.flat) ∧
    (∀ (A B C : ConcreteSize) (x : Array X (.prod A (.sum B C))),
      ∃ y fst snd c d, x.cast .distribLeft = some y ∧ y.parts = some (fst, snd) ∧
        fst.intoChunks = some c ∧ snd.intoChunks = some d ∧ fst.flat ++ snd.flat = x.flat ∧
        c.flat.flatMap flat ++ d.flat.flatMap flat = x.flat) ∧
    (∀ (w : Nat) (S S2 S3 : ConcreteSize) (d d' : SameLen.Derivation w S S2)
      (e : SameLen.Derivation w S2 S3) (a : Array X S),
      a.cast d.proof = a.cast d'.proof ∧
        ∃ r, (do (← a.cast d.proof).cast e.proof) = some r ∧
          a.cast (d.proof.trans e.proof) = some r) := by
  refine ⟨?_, ?_, ?_, ?_, ?_, ?_, ?_, ?_, ?_, ?_⟩
  · intro A B C
    exact concat_assoc
  · intro A a e
    exact ⟨empty_concat e a, concat_empty a e⟩
  · intro A B C x
    obtain ⟨y, hy, hflat⟩ := exists_cast (SameLen.distribRight (A := A) (B := B) (C := C))
      (Nat.add_mul ..) x
    obtain ⟨c, d, hx, hyParts⟩ := parts_intoChunks hflat
    rw [hy]
    exact ⟨c, d, hx, hyParts⟩
  · intro A B C x unreachable dropX dropY
    obtain ⟨y, hy, hflat⟩ := exists_cast (SameLen.prodAssoc (A := A) (B := B) (C := C))
      (Nat.mul_assoc ..) x
    rw [hy]
    exact intoChunks_intoChunks hflat unreachable dropX dropY
  · intro A
    exact cast_prodOneLeft
  · intro A
    exact cast_prodOneRight
  · intro A B
    exact cast_sumComm
  · intro A B
    exact cast_prodComm
  · intro A B C
    exact cast_distribLeft
  · intro w S S2 S3
    exact cast_cast

/-- Three arrays put together, and six elements cast to a matrix and its transpose. -/
theorem lemma_casts_regroup_matrix :
    (∃ r, (do
        let ab ← (new ⟨[1], rfl⟩).concat (new ⟨[2, 3], rfl⟩)
        (← ab.concat (new ⟨[4], rfl⟩)).cast .sumAssoc) = some r ∧
      (do
        let bc ← (new ⟨[2, 3], rfl⟩).concat (new ⟨[4], rfl⟩)
        (new ⟨[1], rfl⟩).concat bc) = some r) ∧
    ∃ r, (do
        let ab ← (new ⟨[1, 2, 3, 4, 5, 6], rfl⟩).cast
          (SameLen.Derivation.checked (w := 8) (B := .prod (.len 2) (.len 3)) rfl).proof
        ab.cast (SameLen.Derivation.prodComm (w := 8) _ _).proof) = some r ∧
      (new ⟨[1, 2, 3, 4, 5, 6], rfl⟩).cast
        ((SameLen.Derivation.checked (w := 8) (B := .prod (.len 2) (.len 3)) rfl).proof.trans
          (SameLen.Derivation.prodComm (w := 8) _ _).proof) = some r := by
  obtain ⟨hassoc, -, -, -, -, -, -, -, -, hcasts⟩ := @lemma_casts_regroup Unit Nat
  exact ⟨hassoc _ _ _ (new ⟨[1], rfl⟩) (new ⟨[2, 3], rfl⟩) (new ⟨[4], rfl⟩),
    (hcasts 8 (.len 6) (.prod (.len 2) (.len 3)) _ (.checked rfl) (.checked rfl)
      (.prodComm _ _) (new ⟨[1, 2, 3, 4, 5, 6], rfl⟩)).2⟩

end Array

end ConstArray
