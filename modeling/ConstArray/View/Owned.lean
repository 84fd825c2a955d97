import ConstArray.Array.Truncate
import ConstArray.View.Slice

/-! # Owned and borrowed conversions

An owned conversion reinterprets the whole storage, the borrowed one of the same
name goes through a flat slice and length checks. Reading through the borrowed
view gives the value that the owned conversion returns.
-/

namespace ConstArray

open Foundation

variable {σ X : Type} {μ : Mutability} {A B P S S2 : ConcreteSize}

/-! ## Reading through a reference -/

namespace Ref

def read (m : Mem X) (a : Ref μ (.arr S .elem)) : Option (Array X S) := Array.load S m a.addr

def readChunks (m : Mem X) (a : Ref μ (.arr A (.arr B .elem))) : Option (Array (Array X B) A) :=
  ((TypeRepr.elem.arr B).arr A).load m a.addr

def readPlain {n : Nat} (m : Mem X) (a : Ref μ (.array .elem n)) : Option (List.Vector X n) :=
  (TypeRepr.elem.array n).load m a.addr

variable {m : Mem X} {x : Array X S} {base : Nat}

theorem slice_of_read (hx : (⟨base⟩ : Ref μ (.arr S .elem)).read m = some x) :
    m.slice base S.count = x.flat.map some := Array.load_eq_some.mp hx

/-- A reference to initialized cells can be read. -/
theorem exists_read (μ : Mutability) {l : List X} (hlength : l.length = S.count)
    (hslice : m.slice base S.count = l.map some) :
    ∃ x : Array X S, (⟨base⟩ : Ref μ (.arr S .elem)).read m = some x ∧ x.flat = l := by
  obtain ⟨x, -, hflat⟩ := Array.exists_ofFlat hlength
  refine ⟨x, Array.load_eq_some.mpr ?_, hflat⟩
  rw [hslice, hflat]

/-- Reading a part of an array. -/
theorem read_part {i : Nat} (hx : (⟨base⟩ : Ref μ (.arr S .elem)).read m = some x)
    (h : i + B.count ≤ S.count) :
    (⟨base + i⟩ : Ref μ (.arr B .elem)).read m =
      Array.ofFlat B ((x.flat.drop i).take B.count) := by
  apply Option.ext
  intro b
  rw [read, Array.load_eq_some, m.slice_part base h, slice_of_read hx, ← List.map_drop,
    ← List.map_take, Array.ofFlat_eq_some]
  exact ⟨fun heq => (List.map_injective_iff.mpr (Option.some_injective X) heq).symm,
    fun heq => by rw [heq]⟩

theorem read_same (hx : (⟨base⟩ : Ref μ (.arr S .elem)).read m = some x)
    (h : S.count = S2.count) :
    (⟨base⟩ : Ref μ (.arr S2 .elem)).read m = Array.ofFlat S2 x.flat := by
  have hpart := read_part (i := 0) (B := S2) hx (by omega)
  rwa [Nat.add_zero, List.drop_zero, List.take_of_length_le (by rw [x.length_flat, h])] at hpart

/-- A write to an element of a borrowed array. -/
theorem read_write (hx : (⟨base⟩ : Ref μ (.arr S .elem)).read m = some x) (i : Nat) (y : X) :
    ∃ x' : Array X S, (⟨base⟩ : Ref μ (.arr S .elem)).read (m.write (base + i) y) = some x' ∧
      x'.flat = x.flat.set i y := by
  apply exists_read
  · simp
  · rw [Mem.slice_write, slice_of_read hx, List.map_set]

theorem readChunks_eq {x : Array X (.prod A B)}
    (hx : (⟨base⟩ : Ref μ (.arr (.prod A B) .elem)).read m = some x) :
    (⟨base⟩ : Ref μ (.arr A (.arr B .elem))).readChunks m = x.intoChunks := by
  rw [readChunks, TypeRepr.load_eq, Array.width_chunks, slice_of_read hx, Array.intoChunks,
    transmuteLayout_eq_decode _ _ (by rw [Array.width_chunks]; simp), Array.encode_elem_arr]

theorem readPlain_eq {n : Nat} {x : Array X (.len n)}
    (hx : (⟨base⟩ : Ref μ (.arr (.len n) .elem)).read m = some x) :
    (⟨base⟩ : Ref μ (.array .elem n)).readPlain m = x.intoArray := by
  have hwidth : (TypeRepr.elem.array n : TypeRepr X _).codec.width = n := Nat.mul_one n
  have hslice : m.slice base n = x.flat.map some := slice_of_read hx
  rw [readPlain, TypeRepr.load_eq, hwidth, hslice, Array.intoArray,
    transmuteLayout_eq_decode _ _ (by rw [hwidth]; simp), Array.encode_elem_arr]

end Ref

namespace Array

/-! ## Agreement -/

/-- The value `y` is what the owned conversion returns, and what is read through
the result of the borrowed one. -/
structure Agrees {Y R : Type} (owned : Option Y) (borrowed : Exec σ R)
    (read : R → Option Y) (y : Y) : Prop where
  owned_eq : owned = some y
  borrowed_eq : (do Exec.ofOption (read (← borrowed))) = (pure y : Exec σ Y)

theorem cast_agrees {w : Nat} (p : SameLen S S2) (hS : S.Evaluates w) (h : S.count = S2.count)
    {m : Mem X} {a : Ref μ (.arr S .elem)} {x : Array X S} (hx : a.read m = some x) :
    ∃ y, Agrees (x.cast p) (a.cast w p : Exec σ _) (Ref.read m) y := by
  obtain ⟨y, hy, -⟩ := exists_cast p h x
  refine ⟨y, hy, ?_⟩
  rw [Ref.cast_eq hS, if_pos h, pure_bind, Ref.read_same hx h, ← cast_eq p h, hy]
  rfl

theorem parts_agrees {w : Nat} (hS : (Size.sum A B).Evaluates w) {m : Mem X}
    {a : Ref μ (.arr (.sum A B) .elem)} {x : Array X (.sum A B)} (hx : a.read m = some x) :
    ∃ y, Agrees x.parts (a.split w : Exec σ _)
      (fun r => do return (← r.1.read m, ← r.2.read m)) y := by
  obtain ⟨fst, snd, hparts, hflat⟩ := exists_parts x
  refine ⟨(fst, snd), hparts, ?_⟩
  have hfst : (⟨a.addr⟩ : Ref μ (.arr A .elem)).read m = some fst := by
    have hpart := Ref.read_part (i := 0) (B := A) hx (by simp)
    rwa [List.drop_zero, hflat, List.take_left' fst.length_flat, ofFlat_flat] at hpart
  have hsnd : (⟨a.addr + A.count⟩ : Ref μ (.arr B .elem)).read m = some snd := by
    have hpart := Ref.read_part (i := A.count) (B := B) hx (by simp)
    rwa [hflat, List.drop_left' fst.length_flat,
      List.take_of_length_le (by rw [snd.length_flat]), ofFlat_flat] at hpart
  rw [Ref.split_eq hS, pure_bind, Ty.count, Nat.mul_one, hfst, hsnd]
  rfl

theorem intoChunks_agrees {w : Nat} (hS : (Size.prod A B).Evaluates w) {m : Mem X}
    {a : Ref μ (.arr (.prod A B) .elem)} {x : Array X (.prod A B)} (hx : a.read m = some x) :
    ∃ y, Agrees x.intoChunks (a.asChunks w : Exec σ _) (Ref.readChunks m) y := by
  obtain ⟨c, hc, -⟩ := exists_intoChunks x
  refine ⟨c, hc, ?_⟩
  rw [Ref.asChunks_eq hS, pure_bind, Ref.readChunks_eq hx, hc]
  rfl

theorem intoArray_agrees {n : Nat} {m : Mem X} {a : Ref μ (.arr (.len n) .elem)}
    {x : Array X (.len n)} (hx : a.read m = some x) :
    ∃ y, Agrees x.intoArray (pure a.asPlain : Exec σ _) (Ref.readPlain m) y := by
  obtain ⟨arr, harr⟩ : ∃ arr, x.intoArray = some arr := ⟨_, intoArray_eq x⟩
  have hread : a.asPlain.readPlain m = some arr := harr ▸ Ref.readPlain_eq hx
  exact ⟨arr, harr, by rw [pure_bind, hread, Exec.ofOption_some]⟩

/-- `truncate` returns what is read through `prefix_ref`, after the rest was
dropped. -/
theorem truncate_agrees {w : Nat} (q : AtMost P S) (hS : S.Evaluates w)
    (h : P.count ≤ S.count) (drop : X → Dtor σ) {m : Mem X} {a : Ref μ (.arr S .elem)}
    {x : Array X S} (hx : a.read m = some x) :
    ∃ y, (x.truncate drop q = do
        (Dtor.slice drop (x.flat.drop P.count)).run.onUnwind (Dtor.slice drop y.flat).run
        return y) ∧
      (do Exec.ofOption ((← a.prefixArray w q).read m)) = (pure y : Exec σ _) := by
  obtain ⟨y, hflat, htruncate⟩ := truncate_eq drop q h x
  refine ⟨y, htruncate, ?_⟩
  have hread : (⟨a.addr⟩ : Ref μ (.arr P .elem)).read m = some y := by
    have hpart := Ref.read_part (i := 0) (B := P) hx (by omega)
    rwa [List.drop_zero, ← hflat, ofFlat_flat] at hpart
  rw [Ref.prefixArray, Ref.splitPrefix_eq hS, if_pos h, map_pure, pure_bind, hread]
  rfl

/-! ## Inverses -/

theorem concat_parts (a : Array X A) (b : Array X B) : (a.concat b >>= parts) = some (a, b) := by
  obtain ⟨c, hc, hflat⟩ := exists_ofFlat (S := .sum A B) (l := a.flat ++ b.flat) (by simp)
  rw [concat_eq, hc]
  exact parts_eq_some.mpr hflat

theorem parts_concat (x : Array X (.sum A B)) :
    (do let (a, b) ← x.parts; a.concat b) = some x := by
  obtain ⟨a, b, hparts, hflat⟩ := exists_parts x
  rw [hparts]
  change a.concat b = some x
  rw [concat_eq, ofFlat_eq_some, hflat]

theorem fromChunks_intoChunks (c : Array (Array X B) A) :
    (c.fromChunks >>= intoChunks) = some c := by
  obtain ⟨a, ha, hflat⟩ := exists_fromChunks c
  rw [ha]
  exact intoChunks_eq_some.mpr hflat.symm

theorem intoChunks_fromChunks (x : Array X (.prod A B)) :
    (x.intoChunks >>= fromChunks) = some x := by
  obtain ⟨c, hc, hflat⟩ := exists_intoChunks x
  rw [hc]
  exact fromChunks_eq_some.mpr hflat.symm

theorem new_intoArray {n : Nat} (arr : List.Vector X n) : (new arr).intoArray = some arr :=
  intoArray_eq _

theorem intoArray_new {n : Nat} (a : Array X (.len n)) : new <$> a.intoArray = some a := by
  rw [intoArray_eq]
  rfl

theorem cast_symm (p : SameLen S S2) (h : S.count = S2.count) (a : Array X S) :
    (a.cast p >>= cast p.symm) = some a := by
  obtain ⟨b, hb, hflat⟩ := exists_cast p h a
  rw [hb]
  exact (cast_eq_some (p := p.symm) h.symm).mpr hflat.symm

/-- Element `i` is element `i % B` of chunk `i / B`. -/
theorem getElem?_flatMap_flat (chunks : List (Array X B)) (i : Nat) :
    (chunks.flatMap flat)[i]? = (do (← chunks[i / B.count]?).flat[i % B.count]?) := by
  induction chunks generalizing i with
  | nil => simp
  | cons c chunks ih =>
      rw [List.flatMap_cons]
      rcases Nat.eq_zero_or_pos B.count with hzero | hpos
      · -- every chunk is empty
        have hc : c.flat = [] := List.eq_nil_of_length_eq_zero (c.length_flat.trans hzero)
        have hrest : chunks.flatMap flat = [] := List.flatMap_eq_nil_iff.mpr fun d _ =>
          List.eq_nil_of_length_eq_zero (d.length_flat.trans hzero)
        simp [hc, hrest, hzero]
      · by_cases hi : i < B.count
        · rw [List.getElem?_append_left (by simpa using hi), Nat.div_eq_of_lt hi,
            Nat.mod_eq_of_lt hi]
          rfl
        · have hle := Nat.le_of_not_lt hi
          rw [List.getElem?_append_right (by simpa using hle), c.length_flat, ih,
            Nat.div_eq_sub_div hpos hle, Nat.mod_eq_sub_mod hle, List.getElem?_cons_succ]

/-- The owned conversions agree with the borrowed ones of an array `x` in the
memory `m`, and invert each other. -/
theorem owned_conversions_agree (w : Nat) (m : Mem X) :
    (∀ (S S2 : ConcreteSize) (p : SameLen S S2) (a : Ref μ (.arr S .elem)) (x : Array X S),
      S.Evaluates w → S.count = S2.count → a.read m = some x →
      ∃ y, Agrees (x.cast p) (a.cast w p : Exec σ _) (Ref.read m) y) ∧
    (∀ (A B : ConcreteSize) (a : Ref μ (.arr (.sum A B) .elem)) (x : Array X (.sum A B)),
      (Size.sum A B).Evaluates w → a.read m = some x →
      ∃ y, Agrees x.parts (a.split w : Exec σ _)
        (fun r => do return (← r.1.read m, ← r.2.read m)) y) ∧
    (∀ (A B : ConcreteSize) (a : Ref μ (.arr (.prod A B) .elem)) (x : Array X (.prod A B)),
      (Size.prod A B).Evaluates w → a.read m = some x →
      ∃ y, Agrees x.intoChunks (a.asChunks w : Exec σ _) (Ref.readChunks m) y) ∧
    (∀ (P S : ConcreteSize) (q : AtMost P S) (drop : X → Dtor σ) (a : Ref μ (.arr S .elem))
      (x : Array X S), S.Evaluates w → P.count ≤ S.count → a.read m = some x →
      ∃ y, (x.truncate drop q = do
          (Dtor.slice drop (x.flat.drop P.count)).run.onUnwind (Dtor.slice drop y.flat).run
          return y) ∧
        (do Exec.ofOption ((← a.prefixArray w q).read m)) = (pure y : Exec σ _)) ∧
    (∀ (n : Nat) (a : Ref μ (.arr (.len n) .elem)) (x : Array X (.len n)), a.read m = some x →
      ∃ y, Agrees x.intoArray (pure a.asPlain : Exec σ _) (Ref.readPlain m) y) ∧
    (∀ (A B : ConcreteSize) (a : Array X A) (b : Array X B),
      (a.concat b >>= parts) = some (a, b) ∧
      ∃ c, a.concat b = some c ∧ c.flat = a.flat ++ b.flat) ∧
    (∀ (A B : ConcreteSize) (x : Array X (.sum A B)),
      (do let (a, b) ← x.parts; a.concat b) = some x) ∧
    (∀ (A B : ConcreteSize) (c : Array (Array X B) A),
      (c.fromChunks >>= intoChunks) = some c) ∧
    (∀ (A B : ConcreteSize) (x : Array X (.prod A B)),
      (x.intoChunks >>= fromChunks) = some x ∧
      ∃ c, x.intoChunks = some c ∧
        ∀ i, x.flat[i]? = (do (← c.flat[i / B.count]?).flat[i % B.count]?)) ∧
    (∀ (n : Nat) (arr : List.Vector X n), (new arr).intoArray = some arr) ∧
    (∀ (n : Nat) (a : Array X (.len n)), new <$> a.intoArray = some a) ∧
    (∀ (S S2 : ConcreteSize) (p : SameLen S S2) (a : Array X S), S.count = S2.count →
      (a.cast p >>= cast p.symm) = some a) ∧
    (∀ (S S2 : ConcreteSize) (a : Array X S), S.Evaluates w → S2.Evaluates w →
      (S.count = S2.count → ∃ b, tryCast w S2 a = some (.ok b) ∧ b.flat = a.flat) ∧
      (S.count ≠ S2.count → tryCast w S2 a = some (.error a))) := by
  refine ⟨?_, ?_, ?_, ?_, ?_, ?_, ?_, ?_, ?_, ?_, ?_, ?_, ?_⟩
  · intro S S2 p a x hS h hx
    exact cast_agrees p hS h hx
  · intro A B a x hS hx
    exact parts_agrees hS hx
  · intro A B a x hS hx
    exact intoChunks_agrees hS hx
  · intro P S q drop a x hS h hx
    exact truncate_agrees q hS h drop hx
  · intro n a x hx
    exact intoArray_agrees hx
  · intro A B a b
    refine ⟨concat_parts a b, ?_⟩
    rw [concat_eq]
    exact exists_ofFlat (by simp)
  · intro A B x
    exact parts_concat x
  · intro A B c
    exact fromChunks_intoChunks c
  · intro A B x
    obtain ⟨c, hc, hflat⟩ := exists_intoChunks x
    refine ⟨intoChunks_fromChunks x, c, hc, ?_⟩
    intro i
    rw [← hflat, getElem?_flatMap_flat]
  · intro n arr
    exact new_intoArray arr
  · intro n a
    exact intoArray_new a
  · intro S S2 p a h
    exact cast_symm p h a
  · intro S S2 a hS hS2
    rw [tryCast_eq hS hS2]
    refine ⟨fun h => ?_, fun h => if_neg h⟩
    obtain ⟨b, hb, hflat⟩ := exists_ofFlat (S := S2) (l := a.flat) (by simpa using h)
    exact ⟨b, by rw [if_pos h, hb]; rfl, hflat⟩

/-- The conversions of a matrix of two rows and three columns in memory. -/
theorem owned_conversions_agree_matrix :
    ∃ x : Array Nat (.prod (.len 2) (.len 3)), x.flat = [1, 2, 3, 4, 5, 6] ∧
      (∃ y, Agrees (x.cast .prodComm)
        ((⟨100⟩ : Ref .shared (.arr (.prod (.len 2) (.len 3)) .elem)).cast 8 .prodComm :
          Exec Unit _) (Ref.read fun b => some (b - 99)) y) ∧
      (∃ y, Agrees x.intoChunks
        ((⟨100⟩ : Ref .shared (.arr (.prod (.len 2) (.len 3)) .elem)).asChunks 8 : Exec Unit _)
        (Ref.readChunks fun b => some (b - 99)) y) ∧
      (∃ b, tryCast 8 (.sum (.len 2) (.len 4)) x = some (.ok b) ∧ b.flat = x.flat) ∧
      tryCast 8 (.len 5) x = some (.error x) := by
  obtain ⟨hcast, -, hchunks, -, -, -, -, -, -, -, -, -, htry⟩ :=
    @owned_conversions_agree Unit Nat .shared 8 fun b => some (b - 99)
  obtain ⟨x, hread, hflat⟩ := @Ref.exists_read Nat (.prod (.len 2) (.len 3))
    (fun b => some (b - 99)) 100 .shared [1, 2, 3, 4, 5, 6] rfl rfl
  refine ⟨x, hflat, hcast _ (.prod (.len 3) (.len 2)) .prodComm ⟨100⟩ x rfl rfl hread,
    hchunks _ _ ⟨100⟩ x rfl hread, (htry _ (.sum (.len 2) (.len 4)) x rfl rfl).1 rfl,
    (htry _ (.len 5) x rfl rfl).2 (by decide)⟩

end Array

end ConstArray
