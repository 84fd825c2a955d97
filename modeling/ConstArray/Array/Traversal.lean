import ConstArray.Array.Build

/-! # In-place building is a sequential loop

`try_from_fn` is the loop that calls its function with `0, 1, 2, …` up to the
first error, and the other builders are instances of it. None of them depends on
more than the length of its size.
-/

namespace ConstArray

open Foundation

variable {σ E X Y Z : Type} {t : Ty} {S S2 : ConcreteSize}

/-- Calls of `f` that append their argument to a log next to the world. -/
def logged {α : Type} (f : Nat → Exec σ α) (i : Nat) : Exec (List Nat × σ) α := fun s =>
  (f i).lift (s.1 ++ [i], s.2)

theorem logged_eq_ok {α : Type} {f : Nat → Exec σ α} {i : Nat} {s t : List Nat × σ} {a : α} :
    logged f i s = .ok a t ↔ f i s.2 = .ok a t.2 ∧ t.1 = s.1 ++ [i] :=
  Exec.lift_eq_ok

theorem logged_eq_panic {α : Type} {f : Nat → Exec σ α} {i : Nat} {s t : List Nat × σ} :
    logged f i s = .panic t ↔ f i s.2 = .panic t.2 ∧ t.1 = s.1 ++ [i] :=
  Exec.lift_eq_panic

theorem logged_eq_abort {α : Type} {f : Nat → Exec σ α} {i : Nat} {s : List Nat × σ} :
    logged f i s = .abort ↔ f i s.2 = .abort :=
  Exec.lift_eq_abort

theorem logged_eq_ub {α : Type} {f : Nat → Exec σ α} {i : Nat} {s : List Nat × σ} :
    logged f i s = .ub ↔ f i s.2 = .ub :=
  Exec.lift_eq_ub

/-- Calls that return have logged exactly their arguments. -/
theorem returns_logged {f : Nat → Exec σ (Except E X)} {calls : List Nat} {xs : List X}
    {s t : List Nat × σ} (h : Exec.Returns (calls.map (logged f)) xs s t) :
    Exec.Returns (calls.map f) xs s.2 t.2 ∧ t.1 = s.1 ++ calls := by
  induction calls generalizing s xs with
  | nil =>
      cases h
      exact ⟨.nil _, (List.append_nil _).symm⟩
  | cons i calls ih =>
      cases h with
      | cons hc hcs =>
          obtain ⟨hi, hlog⟩ := logged_eq_ok.mp hc
          obtain ⟨hrest, hlog'⟩ := ih hcs
          exact ⟨.cons hi hrest, by rw [hlog', hlog, List.append_assoc, List.singleton_append]⟩

/-- The calls before a given one are those for the smaller indices. -/
theorem range_map_eq_append {α : Type} {f : Nat → α} {n : Nat} {c : α} {cs₁ cs₂ : List α}
    (h : (List.range n).map f = cs₁ ++ c :: cs₂) :
    ∃ k < n, cs₁ = (List.range k).map f ∧ c = f k := by
  have hlength := congrArg List.length h
  rw [List.length_map, List.length_range, List.length_append, List.length_cons] at hlength
  refine ⟨cs₁.length, by omega, ?_, ?_⟩
  · have htake := congrArg (List.take cs₁.length) h
    rw [← List.map_take, List.take_range, Nat.min_eq_left (by omega), List.take_left] at htake
    exact htake.symm
  · have hget := congrArg (·[cs₁.length]?) h
    simp only [List.getElem?_map, List.getElem?_append_right (Nat.le_refl _), Nat.sub_self,
      List.getElem?_cons_zero, List.getElem?_range (show cs₁.length < n by omega),
      Option.map_some, Option.some.injEq] at hget
    exact hget.symm

/-- How the sequential loop that calls `f` with `0, …, n - 1` ends, with the
indices it has called `f` with. What it collected is dropped unless it is
returned. -/
inductive SequentialLoop (drop : X → Dtor σ) (dropErr : E → Dtor σ)
    (f : Nat → Exec σ (Except E X)) (S : ConcreteSize) (log : List Nat) (s : σ) :
    Outcome (List Nat × σ) (Except E (Array X S)) → Prop where
  | returned {xs : List X} {s' : σ} {a : Array X S}
      (h : Exec.Returns ((List.range S.count).map f) xs s s') (ha : a.flat = xs) :
      SequentialLoop drop dropErr f S log s (.ok (.ok a) (log ++ List.range S.count, s'))
  | failed {k : Nat} {xs : List X} {s₁ s₂ : σ} {e : E} (hk : k < S.count)
      (h : Exec.Returns ((List.range k).map f) xs s s₁) (he : f k s₁ = .ok (.error e) s₂) :
      SequentialLoop drop dropErr f S log s ((do
        (Dtor.slice drop xs).lift.run.onUnwind (dropErr e).lift.run
        return .error e : Exec _ _) (log ++ List.range (k + 1), s₂))
  | panicked {k : Nat} {xs : List X} {s₁ s₂ : σ} (hk : k < S.count)
      (h : Exec.Returns ((List.range k).map f) xs s s₁) (hp : f k s₁ = .panic s₂) :
      SequentialLoop drop dropErr f S log s
        (Exec.unwind (Dtor.slice drop xs).lift.run (log ++ List.range (k + 1), s₂))
  | aborted {k : Nat} {xs : List X} {s₁ : σ} (hk : k < S.count)
      (h : Exec.Returns ((List.range k).map f) xs s s₁) (ha : f k s₁ = .abort) :
      SequentialLoop drop dropErr f S log s .abort
  | undefined {k : Nat} {xs : List X} {s₁ : σ} (hk : k < S.count)
      (h : Exec.Returns ((List.range k).map f) xs s s₁) (hu : f k s₁ = .ub) :
      SequentialLoop drop dropErr f S log s .ub

namespace Array

/-- `try_from_fn` is the sequential loop. -/
theorem tryFromFn_sequential (drop : X → Dtor σ) (dropErr : E → Dtor σ)
    (f : Nat → Exec σ (Except E X)) (S : ConcreteSize) (log : List Nat) (s : σ) :
    SequentialLoop drop dropErr f S log s
      (tryFromFn (fun x => (drop x).lift) (fun e => (dropErr e).lift) S (logged f) (log, s)) := by
  have hends := Exec.tryTraverse_ends (fun x => (drop x).lift) (fun e => (dropErr e).lift)
    ((List.range S.count).map (logged f)) [] (log, s)
  rw [tryFromFn_eq]
  change SequentialLoop drop dropErr f S log s (Outcome.bind _ (collect S))
  generalize Exec.tryTraverse _ _ _ [] (log, s) = result at hends
  cases hends with
  | @done xs t h =>
      obtain ⟨hreturns, hlog⟩ := returns_logged h
      obtain ⟨a, hof, ha⟩ := exists_ofFlat (S := S) (l := xs) (by simpa using h.length_eq)
      have hresult : collect S (.ok ([] ++ xs) : Except E (List X)) t = .ok (.ok a) t := by
        rw [List.nil_append, collect, hof]
        rfl
      have ht : t = (log ++ List.range S.count, t.2) := Prod.ext hlog rfl
      change SequentialLoop drop dropErr f S log s (collect S (.ok ([] ++ xs)) t)
      rw [hresult, ht]
      exact .returned hreturns ha
  | @error cs₁ cs₂ c xs t₁ t₂ e hcs h hc =>
      obtain ⟨k, hk, rfl, rfl⟩ := range_map_eq_append hcs
      obtain ⟨hreturns, hlog⟩ := returns_logged h
      obtain ⟨hfail, hlog'⟩ := logged_eq_ok.mp hc
      have ht : t₂ = (log ++ List.range (k + 1), t₂.2) :=
        Prod.ext (by rw [hlog', hlog, List.range_succ, List.append_assoc]) rfl
      have hfailed : SequentialLoop drop dropErr f S log s ((do
          (Dtor.slice drop xs).lift.run.onUnwind (dropErr e).lift.run
          return .error e : Exec _ _) (log ++ List.range (k + 1), t₂.2)) :=
        .failed hk hreturns hfail
      rw [← ht, Dtor.lift_slice] at hfailed
      change SequentialLoop drop dropErr f S log s ((_ >>= collect S) t₂)
      rwa [List.nil_append, bind_assoc]
  | @panic cs₁ cs₂ c xs t₁ t₂ hcs h hc =>
      obtain ⟨k, hk, rfl, rfl⟩ := range_map_eq_append hcs
      obtain ⟨hreturns, hlog⟩ := returns_logged h
      obtain ⟨hpanic, hlog'⟩ := logged_eq_panic.mp hc
      have ht : t₂ = (log ++ List.range (k + 1), t₂.2) :=
        Prod.ext (by rw [hlog', hlog, List.range_succ, List.append_assoc]) rfl
      have hpanicked : SequentialLoop drop dropErr f S log s
          (Exec.unwind (Dtor.slice drop xs).lift.run (log ++ List.range (k + 1), t₂.2)) :=
        .panicked hk hreturns hpanic
      rw [← ht, Dtor.lift_slice] at hpanicked
      change SequentialLoop drop dropErr f S log s ((_ >>= collect S) t₂)
      rwa [List.nil_append, Exec.unwind_bind]
  | @abort cs₁ cs₂ c xs t₁ hcs h hc =>
      obtain ⟨k, hk, rfl, rfl⟩ := range_map_eq_append hcs
      exact .aborted hk (returns_logged h).1 (logged_eq_abort.mp hc)
  | @ub cs₁ cs₂ c xs t₁ hcs h hc =>
      obtain ⟨k, hk, rfl, rfl⟩ := range_map_eq_append hcs
      exact .undefined hk (returns_logged h).1 (logged_eq_ub.mp hc)

/-! ## The structure of the size -/

/-- `Array::cast` of a result. -/
def castTo (p : SameLen S S2) (a : Array X S) : Exec σ (Array X S2) :=
  Exec.ofOption (a.cast p)

/-- `Array::cast` of a result that may be an error. -/
def castOk (p : SameLen S S2) : Except E (Array X S) → Exec σ (Except E (Array X S2))
  | .ok a => Except.ok <$> castTo p a
  | .error e => pure (.error e)

theorem ofFlat_castTo (p : SameLen S S2) (h : S.count = S2.count) (xs : List X) :
    (Exec.ofOption (ofFlat S xs) >>= castTo p : Exec σ _) = Exec.ofOption (ofFlat S2 xs) := by
  by_cases hlength : xs.length = S.count
  · obtain ⟨a, hof, ha⟩ := exists_ofFlat hlength
    rw [hof, Exec.ofOption_some, pure_bind, castTo, cast_eq p h, ha]
  · -- neither size has that many elements
    have hnone {S' : ConcreteSize} (hS' : xs.length ≠ S'.count) :
        (ofFlat S' xs : Option (Array X S')) = none := by
      rw [Option.eq_none_iff_forall_ne_some]
      intro a ha
      exact hS' (by rw [← ofFlat_eq_some.mp ha, length_flat])
    rw [hnone hlength, hnone (h ▸ hlength)]
    rfl

/-- What is built from the same calls at `S` and cast is built at `S2`. -/
theorem build_castTo (p : SameLen S S2) (h : S.count = S2.count) (drop : X → Dtor σ)
    (calls : List (Exec σ X)) :
    ((do Exec.ofOption (ofFlat S (← Exec.traverse drop calls []))) >>= castTo p) =
      (do Exec.ofOption (ofFlat S2 (← Exec.traverse drop calls []))) := by
  rw [bind_assoc]
  simp only [ofFlat_castTo p h]

/-- The elements of an array that is cast first. -/
theorem castTo_bind {α : Type} (p : SameLen S S2) (h : S.count = S2.count) (a : Array X S)
    (k : List X → Exec σ α) : (do k (← castTo p a).flat) = k a.flat := by
  obtain ⟨b, hb, hflat⟩ := exists_cast p h a
  rw [castTo, hb, Exec.ofOption_some, pure_bind, hflat]

theorem tryFromFn_castOk (p : SameLen S S2) (h : S.count = S2.count) (drop : X → Dtor σ)
    (dropErr : E → Dtor σ) (f : Nat → Exec σ (Except E X)) :
    (tryFromFn drop dropErr S f >>= castOk p) = tryFromFn drop dropErr S2 f := by
  rw [tryFromFn_eq, tryFromFn_eq, bind_assoc, h]
  refine congrArg _ ?_
  funext r
  cases r with
  | error e => rfl
  | ok xs =>
      rw [collect, collect, ← ofFlat_castTo p h, map_bind, bind_map_left]
      rfl

theorem fromFn_castTo (p : SameLen S S2) (h : S.count = S2.count) (drop : X → Dtor σ)
    (f : Nat → Exec σ X) : (fromFn drop S f >>= castTo p) = fromFn drop S2 f := by
  rw [fromFn_eq, fromFn_eq, build_castTo p h, h]

theorem mapRef_castTo (p : SameLen S S2) (h : S.count = S2.count) (drop : Y → Dtor σ)
    (f : X → Exec σ Y) (a : Array X S) :
    (a.mapRef drop f >>= castTo p) = (castTo p a >>= fun b => b.mapRef drop f) := by
  simp only [mapRef_eq]
  rw [build_castTo p h, castTo_bind p h a fun flat => do
    Exec.ofOption (ofFlat S2 (← Exec.traverse drop (flat.map f) []))]

theorem zipWith_castTo (p : SameLen S S2) (h : S.count = S2.count) (drop : Z → Dtor σ)
    (f : X → Y → Exec σ Z) (a : Array X S) (b : Array Y S) :
    (a.zipWith drop f b >>= castTo p) =
      (do (← castTo p a).zipWith drop f (← castTo p b)) := by
  simp only [zipWith_eq]
  rw [build_castTo p h]
  obtain ⟨a', ha, haflat⟩ := exists_cast p h a
  obtain ⟨b', hb, hbflat⟩ := exists_cast p h b
  rw [castTo, castTo, ha, hb, Exec.ofOption_some, Exec.ofOption_some, pure_bind, pure_bind,
    haflat, hbflat]

theorem clone_castTo (p : SameLen S S2) (h : S.count = S2.count) (drop : X → Dtor σ)
    (cloneElem : X → Exec σ X) (a : Array X S) :
    (a.clone drop cloneElem >>= castTo p) =
      (castTo p a >>= fun b => b.clone drop cloneElem) := by
  simp only [clone_eq]
  rw [build_castTo p h, castTo_bind p h a fun flat => do
    Exec.ofOption (ofFlat S2 (← Exec.traverse drop (flat.map cloneElem) []))]

theorem tryFromSlice_castOk {w : Nat} (p : SameLen S S2) (h : S.count = S2.count)
    (drop : X → Dtor σ) (cloneElem : X → Exec σ X) {m : Mem X} {slice : Slice .shared .elem}
    {xs : List X} (hlen : slice.len < 2 ^ w) (hxs : m.values slice.addr slice.len = some xs) :
    (tryFromSlice w drop cloneElem S m slice >>= castOk p) =
      tryFromSlice w drop cloneElem S2 m slice := by
  rw [tryFromSlice_eq drop cloneElem S hlen hxs, tryFromSlice_eq drop cloneElem S2 hlen hxs, h]
  by_cases hcount : S2.count = xs.length
  · rw [if_pos hcount, if_pos hcount, bind_assoc]
    refine congrArg _ ?_
    funext clones
    rw [bind_map_left, ← ofFlat_castTo p h, map_bind]
    rfl
  · rw [if_neg hcount, if_neg hcount]
    rfl

theorem eachRef_castTo {w : Nat} (p : SameLen S S2) (h : S.count = S2.count)
    (hS : S.Evaluates w) (a : Ref .shared (.arr S t)) :
    (eachRef a >>= castTo p : Exec σ _) = (castRef w p a >>= fun b => eachRef b) := by
  rw [castRef, Ref.cast_eq hS, if_pos h, pure_bind, eachRef_eq, eachRef_eq, ofFlat_castTo p h,
    elementRefs, elementRefs, h]

/-- `try_from_fn` is the sequential loop, the other builders are instances of it,
and none of them observes the structure of the size: followed by a cast, an operation
is the same computation as at the other size, with the same calls of user code. -/
theorem building_is_sequential :
    (∀ (drop : X → Dtor σ) (dropErr : E → Dtor σ) (f : Nat → Exec σ (Except E X))
      (S : ConcreteSize) (log : List Nat) (s : σ), SequentialLoop drop dropErr f S log s
        (tryFromFn (fun x => (drop x).lift) (fun e => (dropErr e).lift) S (logged f) (log, s))) ∧
    (∀ (S : ConcreteSize) (drop : X → Dtor σ),
      (∀ f, fromFn drop S f = do
        match ← tryFromFn drop Empty.elim S fun i => Exec.infallible (f i) with
        | .ok a => return a
        | .error never => nomatch never) ∧
      (∀ d, default drop S d = fromFn drop S fun _ => d) ∧
      (∀ (f : Y → Exec σ X) (a : Array Y S),
        a.mapRef drop f = fromFn drop S fun i => do f (← Exec.unwrap a.flat[i]?)) ∧
      (∀ (f : Y → Z → Exec σ X) (a : Array Y S) (b : Array Z S),
        a.zipWith drop f b = fromFn drop S fun i => do
          f (← Exec.unwrap a.flat[i]?) (← Exec.unwrap b.flat[i]?)) ∧
      (∀ (cloneElem : X → Exec σ X) (a : Array X S),
        a.clone drop cloneElem = fromFn drop S fun i => do
          cloneElem (← Exec.unwrap a.flat[i]?)) ∧
      (∀ (w : Nat) (cloneElem : X → Exec σ X) (m : Mem X) (slice : Slice .shared .elem)
        (xs : List X), slice.len < 2 ^ w → m.values slice.addr slice.len = some xs →
        tryFromSlice w drop cloneElem S m slice =
          if S.count = xs.length then
            Except.ok <$> fromFn drop S fun i => do cloneElem (← Exec.unwrap xs[i]?)
          else pure (.error ⟨⟩)) ∧
      (∀ (t : Ty) (a : Ref .shared (.arr S t)), (eachRef a : Exec σ _) =
        fromFn (fun _ => .noop) S fun i => pure ⟨a.addr + i * t.count⟩)) ∧
    (∀ (S S2 : ConcreteSize) (p : SameLen S S2), S.count = S2.count → ∀ drop : X → Dtor σ,
      (∀ (dropErr : E → Dtor σ) (f : Nat → Exec σ (Except E X)),
        (tryFromFn drop dropErr S f >>= castOk p) = tryFromFn drop dropErr S2 f) ∧
      (∀ f, (fromFn drop S f >>= castTo p) = fromFn drop S2 f) ∧
      (∀ d, (default drop S d >>= castTo p) = default drop S2 d) ∧
      (∀ (f : Y → Exec σ X) (a : Array Y S),
        (a.mapRef drop f >>= castTo p) = (castTo p a >>= fun b => b.mapRef drop f)) ∧
      (∀ (f : Y → Z → Exec σ X) (a : Array Y S) (b : Array Z S),
        (a.zipWith drop f b >>= castTo p) =
          (do (← castTo p a).zipWith drop f (← castTo p b))) ∧
      (∀ (cloneElem : X → Exec σ X) (a : Array X S),
        (a.clone drop cloneElem >>= castTo p) =
          (castTo p a >>= fun b => b.clone drop cloneElem)) ∧
      (∀ (w : Nat) (cloneElem : X → Exec σ X) (m : Mem X) (slice : Slice .shared .elem)
        (xs : List X), slice.len < 2 ^ w → m.values slice.addr slice.len = some xs →
        (tryFromSlice w drop cloneElem S m slice >>= castOk p) =
          tryFromSlice w drop cloneElem S2 m slice) ∧
      (∀ (w : Nat) (t : Ty) (a : Ref .shared (.arr S t)), S.Evaluates w →
        (eachRef a >>= castTo p : Exec σ _) = (castRef w p a >>= fun b => eachRef b))) := by
  refine ⟨tryFromFn_sequential, ?_, ?_⟩
  · intro S drop
    refine ⟨fromFn_eq_tryFromFn drop S, fun d => rfl, ?_, ?_, ?_, ?_, ?_⟩
    · intro f a
      simp only [mapRef, index_eq]
    · intro f a b
      simp only [zipWith, index_eq]
    · intro cloneElem a
      rw [clone_eq, fromFn_eq, map_range_flat]
    · intro w cloneElem m slice xs hlen hxs
      rw [tryFromSlice_eq drop cloneElem S hlen hxs]
      by_cases hcount : S.count = xs.length
      · rw [if_pos hcount, if_pos hcount, fromFn_eq, hcount, Exec.map_range_unwrap, map_bind]
      · rw [if_neg hcount, if_neg hcount]
    · intro t a
      rw [eachRef_eq, fromFn_eq, ← List.nil_append (elementRefs a),
        ← pure_bind ([] ++ elementRefs a) fun refs => Exec.ofOption (ofFlat S refs),
        ← Exec.traverse_pure (fun _ => .noop), elementRefs, List.map_map]
      rfl
  · intro S S2 p h drop
    refine ⟨tryFromFn_castOk p h drop, fromFn_castTo p h drop, ?_, mapRef_castTo p h drop,
      zipWith_castTo p h drop, clone_castTo p h drop, ?_, ?_⟩
    · intro d
      exact fromFn_castTo p h drop _
    · intro w cloneElem m slice xs hlen hxs
      exact tryFromSlice_castOk p h drop cloneElem hlen hxs
    · intro w t a hS
      exact eachRef_castTo p h hS a

/-- A `clone` that counts its calls. -/
def countingClone (x : Nat) : Exec Nat Nat := fun clones => .ok x (clones + 1)

/-- Six elements of a slice, cloned to a matrix that is then cast to its transpose, and the
references to the elements of the matrix. -/
theorem building_is_sequential_matrix :
    (tryFromSlice 8 (fun _ => .noop) countingClone (.prod (.len 2) (.len 3))
        (fun b => some (b - 99)) ⟨100, 6⟩ >>= castOk .prodComm) =
      tryFromSlice 8 (fun _ => .noop) countingClone (.prod (.len 3) (.len 2))
        (fun b => some (b - 99)) ⟨100, 6⟩ ∧
    tryFromSlice 8 (fun _ => .noop) countingClone (.prod (.len 2) (.len 3))
        (fun b => some (b - 99)) ⟨100, 6⟩ =
      Except.ok <$> fromFn (fun _ => .noop) (.prod (.len 2) (.len 3)) (fun i => do
        countingClone (← Exec.unwrap [1, 2, 3, 4, 5, 6][i]?)) ∧
    ((eachRef (⟨100⟩ : Ref .shared (.arr (.prod (.len 2) (.len 3)) .elem)) : Exec Nat _) >>=
        castTo .prodComm) =
      (castRef 8 .prodComm ⟨100⟩ >>= fun b : Ref .shared (.arr (.prod (.len 3) (.len 2)) .elem) =>
        eachRef b) := by
  obtain ⟨-, hinstances, hcasts⟩ := @building_is_sequential Nat Unit Nat Nat Nat
  obtain ⟨-, -, -, -, -, hslice, -⟩ :=
    hinstances (.prod (.len 2) (.len 3)) fun _ => Dtor.noop
  obtain ⟨-, -, -, -, -, -, hcastSlice, hrefs⟩ := hcasts (.prod (.len 2) (.len 3))
    (.prod (.len 3) (.len 2)) .prodComm rfl fun _ => Dtor.noop
  exact ⟨hcastSlice 8 _ _ ⟨100, 6⟩ [1, 2, 3, 4, 5, 6] (by decide) rfl,
    hslice 8 _ _ ⟨100, 6⟩ [1, 2, 3, 4, 5, 6] (by decide) rfl,
    hrefs 8 .elem ⟨100⟩ rfl⟩

end Array

end ConstArray
