import ConstArray.Array.Consume
import ConstArray.View.Owned

/-! # Builders in lockstep with their source

While `map`, `zip` and `pad_from` build the target, the loop of `try_build` counts the
slots that are written, and the source's iterator shrinks its range of alive slots.
The two advance together: at every call of the closure, the results so far and what
remains in the source are determined by the index.
-/

namespace ConstArray

open Foundation

variable {σ E L X Y Z : Type} {P S : ConcreteSize}

/-! ## The calls of the loop -/

/-- The states in which the loop of `try_build` calls its closure, with the index and
the guard. -/
inductive LoopCalls (f : Nat → Exec σ (Except E X)) (s : σ) : Nat → Guard X → σ → Prop where
  | first : LoopCalls f s 0 { mem := .uninit, init := 0 } s
  | next {i : Nat} {guard : Guard X} {t t' : σ} {x : X} (h : LoopCalls f s i guard t)
      (hcall : f i t = .ok (.ok x) t') :
      LoopCalls f s (i + 1) { mem := guard.mem.write i x, init := i + 1 } t'

/-- The loop passes through the states of its calls. -/
theorem LoopCalls.buildLoop_eq {f : Nat → Exec σ (Except E X)} {s t : σ} {i n : Nat}
    {guard : Guard X} (h : LoopCalls f s i guard t) (hi : i ≤ n) (drop : X → Dtor σ)
    (dropErr : E → Dtor σ) :
    buildLoop drop dropErr f n 0 { mem := .uninit, init := 0 } s =
      buildLoop drop dropErr f (n - i) i guard t := by
  induction h with
  | first => rfl
  | @next i guard t t' x _ hcall ih =>
      have hsucc : n - i = n - (i + 1) + 1 := by omega
      rw [ih (Nat.le_of_succ_le hi), hsucc, buildLoop, Exec.onUnwind_bind_ok hcall]

/-- The loop of `try_build` over the closure `c` next to the source `l`, with what it
leaves read back: the source is dropped when the loop is done. -/
def loopOver (drop : Y → Dtor σ) (S : ConcreteSize) (c : Exec (L × σ) Y) (l : L)
    (dropSource : L → Exec σ Unit) : Exec σ (Array Y S) :=
  Exec.withLocal l
    (do
      match ← buildLoop (fun y => (drop y).lift) Empty.elim (fun _ => Exec.infallible c) S.count 0
          { mem := .uninit, init := 0 } with
      | .ok guard => Exec.ofOption (Array.load S guard.mem 0)
      | .error never => nomatch never)
    dropSource fun b => (b.drop drop).run

/-- `from_fn` next to a source that its closure takes from is the loop over that
closure. -/
theorem loopOver_eq (drop : Y → Dtor σ) (c : Exec (L × σ) Y) (l : L)
    (dropSource : L → Exec σ Unit) :
    Exec.withLocal l (Array.fromFn (fun y => (drop y).lift) S fun _ => c) dropSource
        (fun b => (b.drop drop).run) =
      loopOver drop S c l dropSource := by
  rw [loopOver, Array.fromFn, build, tryBuild, map_bind, bind_assoc]
  refine congrArg (Exec.withLocal l · dropSource _) (congrArg _ ?_)
  funext r
  cases r with
  | error never => exact never.elim
  | ok guard =>
      have hload : Array.load S guard.mem 0 = ((S.repr .elem).load guard.mem 0).map Array.mk := rfl
      dsimp only
      rw [hload]
      cases (S.repr .elem).load guard.mem 0 <;> rfl

/-! ## Sources -/

/-- The closure `c` takes the values of a source one by one: where the source holds
`z :: zs`, it runs `g z` and leaves `zs`. -/
def Feeds (Src : L → List Z → Prop) (c : Exec (L × σ) Y) (g : Z → Exec σ Y) : Prop :=
  ∀ l z zs t, Src l (z :: zs) → ∃ l', Src l' zs ∧ c (l, t) = (g z).lift (l', t)

/-- The invariant of the loop: after `i` calls, the guard owns their results and the
source holds all but the first `i` values. -/
theorem LoopCalls.invariant {Src : L → List Z → Prop} {c : Exec (L × σ) Y} {g : Z → Exec σ Y}
    (hfeeds : Feeds Src c g) {l : L} {zs : List Z} (hinit : Src l zs) {s : σ} {i : Nat}
    {guard : Guard Y} {p : L × σ} (h : LoopCalls (fun _ => Exec.infallible c) (l, s) i guard p)
    (hi : i ≤ zs.length) :
    ∃ ys, Exec.Returns ((zs.take i).map fun z => Exec.infallible (g z)) ys s p.2 ∧
      ys.length = i ∧ guard.Holds ys ∧ Src p.1 (zs.drop i) := by
  induction h with
  | first => exact ⟨[], .nil s, rfl, .start, hinit⟩
  | @next i guard p p' y _ hcall ih =>
      obtain ⟨ys, hys, rfl, hguard, hsrc⟩ := ih (Nat.le_of_succ_le hi)
      rw [List.drop_eq_getElem_cons hi] at hsrc
      obtain ⟨l', hl', hc⟩ := hfeeds p.1 _ _ p.2 hsrc
      have hcall' : (g zs[ys.length]).lift (l', p.2) = .ok y p' :=
        hc.symm.trans (Exec.infallible_eq_ok.mp hcall)
      obtain ⟨hg, hp⟩ := Exec.lift_eq_ok.mp hcall'
      refine ⟨ys ++ [y], ?_, by simp, hguard.write y, hp ▸ hl'⟩
      rw [List.take_succ_eq_append_getElem hi, List.map_append]
      exact hys.append (.cons (Exec.infallible_eq_ok.mpr hg) (.nil _))

/-- A builder over a source with the values `zs`: at the call for index `i`, the results
of the first `i` calls are built, the source holds the values from `zs[i]` on, and the
call runs `g zs[i]` next to a source that holds those after it. -/
structure RunsInLockstep (Src : L → List Z → Prop) (zs : List Z) (g : Z → Exec σ Y)
    (c : Exec (L × σ) Y) (l : L) (n : Nat) : Prop where
  loop : ∀ (drop : Y → Dtor (L × σ)) (s : σ) (i : Nat) (guard : Guard Y) (p : L × σ),
    LoopCalls (fun _ => Exec.infallible c) (l, s) i guard p → i ≤ n →
    buildLoop drop Empty.elim (fun _ => Exec.infallible c) n 0 { mem := .uninit, init := 0 }
        (l, s) =
      buildLoop drop Empty.elim (fun _ => Exec.infallible c) (n - i) i guard p
  call : ∀ (s : σ) (i : Nat) (guard : Guard Y) (l' : L) (t : σ),
    LoopCalls (fun _ => Exec.infallible c) (l, s) i guard (l', t) → i < n →
    ∃ ys z l'', Exec.Returns ((zs.take i).map fun z => Exec.infallible (g z)) ys s t ∧
      ys.length = i ∧ guard.Holds ys ∧ zs[i]? = some z ∧ Src l' (zs.drop i) ∧
      Src l'' (zs.drop (i + 1)) ∧ c (l', t) = (g z).lift (l'', t)

theorem Feeds.runsInLockstep {Src : L → List Z → Prop} {c : Exec (L × σ) Y} {g : Z → Exec σ Y}
    (hfeeds : Feeds Src c g) {l : L} {zs : List Z} (hinit : Src l zs) {n : Nat}
    (hlength : zs.length = n) : RunsInLockstep Src zs g c l n where
  loop drop s i guard p h hi := h.buildLoop_eq hi drop Empty.elim
  call s i guard l' t h hi := by
    rw [← hlength] at hi
    obtain ⟨ys, hys, hi', hguard, hsrc⟩ := h.invariant hfeeds hinit (Nat.le_of_lt hi)
    have hcons : Src l' (zs[i] :: zs.drop (i + 1)) := List.drop_eq_getElem_cons hi ▸ hsrc
    obtain ⟨l'', hl'', hc⟩ := hfeeds l' _ _ t hcons
    exact ⟨ys, zs[i], l'', hys, hi', hguard, List.getElem?_eq_getElem hi, hsrc, hl'', hc⟩

namespace Array

theorem feeds_map (unreachable : Exec σ Y) (f : X → Exec σ Y) :
    Feeds IntoIter.Holds (exactNext unreachable (mapNext f (IntoIter.next (S := S)))) f := by
  intro it x xs t h
  obtain ⟨it', h', hnext⟩ := h.next_cons t
  refine ⟨it', h', ?_⟩
  rw [exactNext, mapNext, Exec.bind_apply, Exec.bind_apply, hnext]
  dsimp only
  rw [Exec.map_apply]
  cases (f x).lift (it', t) <;> rfl

/-- `map` is the loop over this closure. -/
theorem map_eq_loopOver (unreachable : Exec σ Y) (dropX : X → Dtor σ) (dropY : Y → Dtor σ)
    (f : X → Exec σ Y) {a : Array X S} {it : IntoIter X S} (hit : a.intoIter = some it) :
    a.map unreachable dropX dropY f =
      loopOver dropY S (exactNext unreachable (mapNext f IntoIter.next)) it
        (IntoIter.dropGlue (pure ()) dropX) := by
  rw [map, hit, Exec.ofOption_some, pure_bind, fromExactIter, loopOver_eq]

theorem zip_eq_loopOver (unreachable : Exec σ (X × Y)) (dropX : X → Dtor σ) (dropY : Y → Dtor σ)
    {a : Array X S} {b : Array Y S} {itA : IntoIter X S} {itB : IntoIter Y S}
    (hitA : a.intoIter = some itA) (hitB : b.intoIter = some itB) :
    a.zip unreachable dropX dropY b =
      loopOver (Dtor.pair dropX dropY) S
        (exactNext unreachable (zipNext dropX IntoIter.next IntoIter.next)) (itA, itB)
        (zipGlue dropX dropY) := by
  rw [zip, hitA, hitB, Exec.ofOption_some, Exec.ofOption_some, pure_bind, pure_bind,
    fromExactIter, loopOver_eq]

/-- The iterators over both arrays, with the pairs that are left. -/
def HoldsPairs (iters : IntoIter X S × IntoIter Y S) (pairs : List (X × Y)) : Prop :=
  iters.1.Holds (pairs.map Prod.fst) ∧ iters.2.Holds (pairs.map Prod.snd)

theorem feeds_zip (unreachable : Exec σ (X × Y)) (drop : X → Dtor σ) :
    Feeds (HoldsPairs (S := S))
      (exactNext unreachable (zipNext drop IntoIter.next IntoIter.next)) pure := by
  rintro ⟨itA, itB⟩ ⟨x, y⟩ pairs t ⟨hA, hB⟩
  obtain ⟨itA', hA', hnextA⟩ := IntoIter.Holds.next_cons hA t
  obtain ⟨itB', hB', hnextB⟩ := IntoIter.Holds.next_cons hB t
  refine ⟨(itA', itB'), ⟨hA', hB'⟩, ?_⟩
  have hfst : (IntoIter.next.zoom Prod.fst fun iters l => (l, iters.2) :
      Exec ((IntoIter X S × IntoIter Y S) × σ) (Option X)) ((itA, itB), t) =
        .ok (some x) ((itA', itB), t) := Exec.zoom_of_ok hnextA
  have hsnd : (IntoIter.next.zoom Prod.snd fun iters m => (iters.1, m) :
      Exec ((IntoIter X S × IntoIter Y S) × σ) (Option Y)) ((itA', itB), t) =
        .ok (some y) ((itA', itB'), t) := Exec.zoom_of_ok hnextB
  rw [exactNext, zipNext, Exec.bind_apply, Exec.bind_apply, hfst]
  dsimp only
  rw [Exec.onUnwind_bind_ok hsnd]
  rfl

/-- The closure of `pad_from`. -/
def padNext (cloneElem : X → Exec σ X) (fill : X) : Exec (IntoIter X P × σ) X := do
  match ← IntoIter.next with
  | some x => return x
  | none => (cloneElem fill).lift

/-- `pad_from` drops what is left of the prefix when its loop is done, then `fill`. -/
theorem padFrom_eq_loopOver (drop : X → Dtor σ) (cloneElem : X → Exec σ X)
    {initial : Array X P} {it : IntoIter X P} (hit : initial.intoIter = some it) (p : AtMost P S)
    (fill : X) :
    padFrom drop cloneElem initial p fill =
      Exec.inScope
        (loopOver drop S (padNext cloneElem fill) it (IntoIter.dropGlue (pure ()) drop))
        (drop fill).run fun a => (a.drop drop).run := by
  rw [padFrom, hit, Exec.ofOption_some, pure_bind, ← loopOver_eq]
  rfl

/-- The iterator over the prefix, followed by calls that find it exhausted. -/
def HoldsThenNone (it : IntoIter X P) (values : List (Option X)) : Prop :=
  ∃ xs n, values = xs.map some ++ .replicate n none ∧ it.Holds xs

theorem HoldsThenNone.next_some {it : IntoIter X P} {x : X} {values : List (Option X)}
    (h : HoldsThenNone it (some x :: values)) (t : σ) :
    ∃ it', HoldsThenNone it' values ∧ IntoIter.next (it, t) = .ok (some x) (it', t) := by
  obtain ⟨xs, n, hvalues, hholds⟩ := h
  cases xs with
  | nil => cases n <;> cases hvalues
  | cons x xs =>
      obtain ⟨hx, rfl⟩ := List.cons.inj hvalues
      obtain rfl := Option.some.inj hx
      obtain ⟨it', h', hnext⟩ := hholds.next_cons t
      exact ⟨it', ⟨xs, n, rfl, h'⟩, hnext⟩

/-- An exhausted iterator stays as it is. -/
theorem HoldsThenNone.next_none {it : IntoIter X P} {values : List (Option X)}
    (h : HoldsThenNone it (none :: values)) (t : σ) :
    HoldsThenNone it values ∧ IntoIter.next (it, t) = .ok none (it, t) := by
  obtain ⟨xs, n, hvalues, hholds⟩ := h
  cases xs with
  | cons x xs => cases hvalues
  | nil =>
      cases n with
      | zero => cases hvalues
      | succ n =>
          obtain ⟨-, rfl⟩ := List.cons.inj hvalues
          exact ⟨⟨[], n, rfl, hholds⟩, (IntoIter.next_empty hholds.not_lt t).1⟩

theorem feeds_padNext (cloneElem : X → Exec σ X) (fill : X) :
    Feeds (HoldsThenNone (P := P)) (padNext cloneElem fill)
      fun value => value.elim (cloneElem fill) pure := by
  intro it value values t h
  cases value with
  | none =>
      obtain ⟨h', hnext⟩ := h.next_none t
      refine ⟨it, h', ?_⟩
      rw [padNext, Exec.bind_apply, hnext]
      rfl
  | some x =>
      obtain ⟨it', h', hnext⟩ := h.next_some t
      refine ⟨it', h', ?_⟩
      rw [padNext, Exec.bind_apply, hnext]
      rfl

theorem getElem?_padded_left {xs : List X} {i : Nat} {x : X} (n : Nat) (hx : xs[i]? = some x) :
    (xs.map some ++ .replicate n none)[i]? = some (some x) := by
  obtain ⟨hi, -⟩ := List.getElem?_eq_some_iff.mp hx
  rw [List.getElem?_append_left (by simpa using hi), List.getElem?_map, hx, Option.map_some]

theorem getElem?_padded_right {xs : List X} {i : Nat} (n : Nat) (hle : xs.length ≤ i)
    (hi : i < xs.length + n) : (xs.map some ++ .replicate n none)[i]? = some none := by
  rw [List.getElem?_append_right (by simpa using hle), List.length_map, List.getElem?_replicate,
    if_pos (by omega)]

/-! ## What is returned -/

theorem map_eq_ok {unreachable : Exec σ Y} {dropX : X → Dtor σ} {dropY : Y → Dtor σ}
    {f : X → Exec σ Y} {a : Array X S} {b : Array Y S} {s t : σ} :
    a.map unreachable dropX dropY f s = .ok b t ↔
      Exec.Returns (a.flat.map fun x => Exec.infallible (f x)) b.flat s t := by
  have hcalls : a.flat.map (fun x => Exec.infallible (f x)) =
      (a.flat.map f).map Exec.infallible := (List.map_map ..).symm
  rw [map_eq, Exec.bind_eq_ok, hcalls]
  simp only [Exec.mapOwned_eq_ok, Exec.traverse_eq_ok, Exec.ofOption_eq_ok, ofFlat_eq_some,
    List.nil_append]
  constructor
  · rintro ⟨ys, s', ⟨_, hreturns, rfl⟩, hflat, rfl⟩
    exact hflat ▸ hreturns
  · intro hreturns
    exact ⟨b.flat, t, ⟨_, hreturns, rfl⟩, rfl, rfl⟩

theorem padFrom_eq_ok {drop : X → Dtor σ} {cloneElem : X → Exec σ X} {p : AtMost P S}
    (h : P.count ≤ S.count) {initial : Array X P} {fill : X} {b : Array X S} {s t : σ} :
    padFrom drop cloneElem initial p fill s = .ok b t ↔
      ∃ clones s', Exec.Returns
          (.replicate (S.count - P.count) (Exec.infallible (cloneElem fill))) clones s s' ∧
        b.flat = initial.flat ++ clones ∧ (drop fill).run s' = .ok () t := by
  rw [padFrom_eq drop cloneElem p h, Exec.inScope_eq_ok]
  simp only [Exec.bind_eq_ok, Exec.traverse_eq_ok, Exec.ofOption_eq_ok, ofFlat_eq_some,
    List.map_replicate]
  constructor
  · rintro ⟨_, ⟨_, s', ⟨clones, hreturns, rfl⟩, hflat, rfl⟩, hfill⟩
    exact ⟨clones, _, hreturns, hflat, hfill⟩
  · rintro ⟨clones, s', hreturns, hflat, hfill⟩
    exact ⟨s', ⟨_, s', ⟨clones, hreturns, rfl⟩, hflat, rfl⟩, hfill⟩

/-- Truncating a padded array drops the padding. -/
theorem truncate_padded (drop : X → Dtor σ) (p : AtMost P S) (h : P.count ≤ S.count)
    {initial : Array X P} {b : Array X S} {clones : List X}
    (hflat : b.flat = initial.flat ++ clones) :
    b.truncate drop p = (do
      (Dtor.slice drop clones).run.onUnwind (Dtor.slice drop initial.flat).run
      return initial) := by
  obtain ⟨c, hc, htruncate⟩ := truncate_eq drop p h b
  rw [hflat, List.take_left' initial.length_flat] at hc
  obtain rfl : c = initial := by
    rw [← Option.some.injEq, ← ofFlat_flat c, hc, ofFlat_flat]
  rw [htruncate, hflat, List.drop_left' c.length_flat]

/-- The parts of a borrowed array that was padded. -/
theorem splitPrefix_padded {w : Nat} {μ : Mutability} (p : AtMost P S) (h : P.count ≤ S.count)
    (hS : S.Evaluates w) {initial : Array X P} {b : Array X S} {clones : List X}
    (hflat : b.flat = initial.flat ++ clones) {m : Mem X} {r : Ref μ (.arr S .elem)}
    (hread : r.read m = some b) :
    ∃ r' rest, (r.splitPrefix w p : Exec σ _) = pure (r', rest) ∧
      r'.read m = some initial ∧ m.slice rest.addr rest.len = clones.map some := by
  have hlength := congrArg List.length hflat
  rw [List.length_append, length_flat, length_flat] at hlength
  refine ⟨⟨r.addr⟩, ⟨r.addr + P.count, S.count - P.count⟩, ?_, ?_, ?_⟩
  · rw [Ref.splitPrefix_eq hS, if_pos h, Ty.count, Nat.mul_one]
  · have hpart := Ref.read_part (i := 0) (B := P) hread (by omega)
    rwa [List.drop_zero, hflat, List.take_left' initial.length_flat, ofFlat_flat] at hpart
  · have hrest : (clones.map some).length ≤ S.count - P.count := by
      rw [List.length_map]
      omega
    change m.slice (r.addr + P.count) (S.count - P.count) = _
    rw [m.slice_part r.addr (n := S.count) (by omega), Ref.slice_of_read hread, hflat,
      List.map_append, List.drop_left' (by simp), List.take_of_length_le hrest]

/-- The builders that consume a source are loops over closures that take from it, and
run in lockstep with it. The branch for a source that ends too early has no influence on
them, and `pad_from` clones exactly for what the prefix leaves, once it is exhausted. -/
theorem consuming_builders_run_in_lockstep :
    (∀ (S : ConcreteSize) (unreachable : Exec σ Y) (dropX : X → Dtor σ) (dropY : Y → Dtor σ)
      (f : X → Exec σ Y) (a : Array X S),
      (∃ it, a.intoIter = some it ∧
        a.map unreachable dropX dropY f =
          loopOver dropY S (exactNext unreachable (mapNext f IntoIter.next)) it
            (IntoIter.dropGlue (pure ()) dropX) ∧
        RunsInLockstep IntoIter.Holds a.flat f
          (exactNext unreachable (mapNext f IntoIter.next)) it S.count) ∧
      (∀ (s : σ) (b : Array Y S) (t : σ), a.map unreachable dropX dropY f s = .ok b t ↔
        Exec.Returns (a.flat.map fun x => Exec.infallible (f x)) b.flat s t) ∧
      (∀ unreachable' : Exec σ Y,
        a.map unreachable dropX dropY f = a.map unreachable' dropX dropY f)) ∧
    (∀ (S : ConcreteSize) (unreachable : Exec σ (X × Y)) (dropX : X → Dtor σ)
      (dropY : Y → Dtor σ) (a : Array X S) (b : Array Y S),
      (∃ itA itB, a.intoIter = some itA ∧ b.intoIter = some itB ∧
        a.zip unreachable dropX dropY b =
          loopOver (Dtor.pair dropX dropY) S
            (exactNext unreachable (zipNext dropX IntoIter.next IntoIter.next)) (itA, itB)
            (zipGlue dropX dropY) ∧
        RunsInLockstep HoldsPairs (a.flat.zip b.flat) pure
          (exactNext unreachable (zipNext dropX IntoIter.next IntoIter.next)) (itA, itB)
          S.count) ∧
      ∃ c, a.zip unreachable dropX dropY b = pure c ∧ c.flat = a.flat.zip b.flat) ∧
    (∀ (P S : ConcreteSize) (drop : X → Dtor σ) (cloneElem : X → Exec σ X) (p : AtMost P S)
      (initial : Array X P) (fill : X), P.count ≤ S.count →
      (∃ it, initial.intoIter = some it ∧
        padFrom drop cloneElem initial p fill =
          Exec.inScope
            (loopOver drop S (padNext cloneElem fill) it (IntoIter.dropGlue (pure ()) drop))
            (drop fill).run (fun a => (a.drop drop).run) ∧
        RunsInLockstep HoldsThenNone
          (initial.flat.map some ++ .replicate (S.count - P.count) none)
          (fun value => value.elim (cloneElem fill) pure) (padNext cloneElem fill) it S.count ∧
        ∀ (s : σ) (i : Nat) (guard : Guard X) (it' : IntoIter X P) (t : σ),
          LoopCalls (fun _ => Exec.infallible (padNext cloneElem fill)) (it, s) i guard (it', t) →
          i < S.count →
          (∀ x, initial.flat[i]? = some x →
            ∃ it'', IntoIter.next (it', t) = .ok (some x) (it'', t)) ∧
          (P.count ≤ i → IntoIter.next (it', t) = .ok none (it', t))) ∧
      (∀ (s : σ) (b : Array X S) (t : σ), padFrom drop cloneElem initial p fill s = .ok b t ↔
        ∃ clones s', Exec.Returns
            (.replicate (S.count - P.count) (Exec.infallible (cloneElem fill))) clones s s' ∧
          b.flat = initial.flat ++ clones ∧ (drop fill).run s' = .ok () t) ∧
      (∀ (b : Array X S) (clones : List X), b.flat = initial.flat ++ clones →
        (b.truncate drop p = do
          (Dtor.slice drop clones).run.onUnwind (Dtor.slice drop initial.flat).run
          return initial) ∧
        ∀ (w : Nat) (μ : Mutability) (m : Mem X) (r : Ref μ (.arr S .elem)), S.Evaluates w →
          r.read m = some b →
          ∃ r' rest, (r.splitPrefix w p : Exec σ _) = pure (r', rest) ∧
            r'.read m = some initial ∧ m.slice rest.addr rest.len = clones.map some)) := by
  refine ⟨?_, ?_, ?_⟩
  · intro S unreachable dropX dropY f a
    obtain ⟨it, hit, hholds⟩ := IntoIter.exists_intoIter a
    refine ⟨⟨it, hit, map_eq_loopOver unreachable dropX dropY f hit,
      (feeds_map unreachable f).runsInLockstep hholds a.length_flat⟩, fun s b t => map_eq_ok, ?_⟩
    intro unreachable'
    rw [map_eq, map_eq]
  · intro S unreachable dropX dropY a b
    obtain ⟨itA, hitA, hA⟩ := IntoIter.exists_intoIter a
    obtain ⟨itB, hitB, hB⟩ := IntoIter.exists_intoIter b
    have hlength : (a.flat.zip b.flat).length = S.count := by simp
    have hpairs : HoldsPairs (itA, itB) (a.flat.zip b.flat) := by
      refine ⟨?_, ?_⟩
      · rwa [List.map_fst_zip (by simp)]
      · rwa [List.map_snd_zip (by simp)]
    obtain ⟨c, hof, hc⟩ := exists_ofFlat hlength
    refine ⟨⟨itA, itB, hitA, hitB, zip_eq_loopOver unreachable dropX dropY hitA hitB,
      (feeds_zip unreachable dropX).runsInLockstep hpairs hlength⟩, c, ?_, hc⟩
    rw [zip_eq, hof, Exec.ofOption_some]
  · intro P S drop cloneElem p initial fill h
    obtain ⟨it, hit, hholds⟩ := IntoIter.exists_intoIter initial
    have hlength : (initial.flat.map some ++
        .replicate (S.count - P.count) none).length = S.count := by
      simp
      omega
    have hlockstep := (feeds_padNext cloneElem fill).runsInLockstep ⟨_, _, rfl, hholds⟩ hlength
    refine ⟨⟨it, hit, padFrom_eq_loopOver drop cloneElem hit p fill, hlockstep, ?_⟩,
      fun s b t => padFrom_eq_ok h, ?_⟩
    · intro s i guard it' t hcall hi
      obtain ⟨ys, value, it'', -, -, -, hvalue, hsrc, -⟩ := hlockstep.call s i guard it' t hcall hi
      obtain ⟨hlt, rfl⟩ := List.getElem?_eq_some_iff.mp hvalue
      rw [List.drop_eq_getElem_cons hlt] at hsrc
      constructor
      · intro x hx
        have hsome := getElem?_padded_left (S.count - P.count) hx
        rw [hvalue, Option.some.injEq] at hsome
        rw [hsome] at hsrc
        obtain ⟨it'', -, hnext⟩ := hsrc.next_some t
        exact ⟨it'', hnext⟩
      · intro hle
        have hnone := getElem?_padded_right (S.count - P.count)
          (initial.length_flat.trans_le hle) (by rw [length_flat]; omega)
        rw [hvalue, Option.some.injEq] at hnone
        rw [hnone] at hsrc
        exact (hsrc.next_none t).2
    · intro b clones hflat
      exact ⟨truncate_padded drop p h hflat, fun w μ m r hS => splitPrefix_padded p h hS hflat⟩

/-- Two elements padded to three: one clone, counted in the world. -/
theorem consuming_builders_run_in_lockstep_pad :
    ∃ b : Array Nat (.len 3),
      padFrom (fun _ => Dtor.noop) (fun x clones => .ok x (clones + 1))
        (new ⟨[5, 6], rfl⟩ : Array Nat (.len 2)) ⟨⟩ 7 0 = .ok b 1 ∧ b.flat = [5, 6, 7] := by
  obtain ⟨-, hreturns, -⟩ :=
    (consuming_builders_run_in_lockstep (σ := Nat) (X := Nat) (Y := Nat)).2.2 (.len 2) (.len 3)
      (fun _ => Dtor.noop) (fun x clones => .ok x (clones + 1)) ⟨⟩ (new ⟨[5, 6], rfl⟩) 7 (by decide)
  exact ⟨new ⟨[5, 6, 7], rfl⟩,
    (hreturns _ _ _).mpr ⟨[7], 1, .cons rfl (.nil _), rfl, rfl⟩, rfl⟩

end Array

end ConstArray
