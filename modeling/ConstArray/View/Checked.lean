import ConstArray.View.Slice

/-! # Views with a wrong proof

The borrowed views do not trust the proofs they take. Whatever the proof is
worth, a view is returned exactly when the lengths are related as it claims, and
lies inside its source; otherwise the call panics.
-/

namespace ConstArray

open Foundation

variable {σ α : Type} {μ : Mutability} {t : Ty} {S S2 P : ConcreteSize} {w : Nat}

/-- `c` returns if and only if `cond` holds, and panics otherwise; it changes
nothing, and what it returns satisfies `post`. -/
structure PanicsUnless (c : Exec σ α) (cond : Prop) (post : α → Prop) : Prop where
  returns_iff : ∀ s, (∃ a s', c s = .ok a s') ↔ cond
  panics : ¬ cond → ∀ s, c s = .panic s
  returns : ∀ s a s', c s = .ok a s' → s' = s ∧ post a

theorem PanicsUnless.of_ite {c : Exec σ α} {cond : Prop} [Decidable cond] {a : α}
    {post : α → Prop} (hc : c = if cond then pure a else Exec.panic) (hpost : cond → post a) :
    PanicsUnless c cond post := by
  by_cases h : cond
  · rw [if_pos h] at hc
    subst hc
    refine ⟨fun s => ⟨fun _ => h, fun _ => ⟨a, s, rfl⟩⟩, fun hn => absurd h hn, ?_⟩
    intro s b s' heq
    obtain ⟨rfl, rfl⟩ := Outcome.ok.inj heq
    exact ⟨rfl, hpost h⟩
  · rw [if_neg h] at hc
    subst hc
    refine ⟨fun s => ⟨?_, fun hcond => absurd hcond h⟩, fun _ _ => rfl, ?_⟩
    · rintro ⟨b, s', heq⟩
      cases heq
    · intro s b s' heq
      cases heq

theorem PanicsUnless.map {β : Type} {c : Exec σ α} {cond : Prop} {post : α → Prop}
    (hc : PanicsUnless c cond post) (f : α → β) {post' : β → Prop}
    (hpost : ∀ a, post a → post' (f a)) : PanicsUnless (f <$> c) cond post' := by
  refine ⟨fun s => ?_, fun hn s => ?_, fun s b s' heq => ?_⟩
  · rw [← hc.returns_iff s, Exec.map_apply]
    cases h : c s <;> simp
  · rw [Exec.map_apply, hc.panics hn s]
  · rw [Exec.map_apply] at heq
    cases h : c s with
    | ok a s'' =>
        rw [h] at heq
        obtain ⟨rfl, rfl⟩ := Outcome.ok.inj heq
        exact ⟨(hc.returns s a s'' h).1, hpost a (hc.returns s a s'' h).2⟩
    | panic s'' =>
        rw [h] at heq
        cases heq
    | abort =>
        rw [h] at heq
        cases heq
    | ub =>
        rw [h] at heq
        cases heq

namespace Ref

/-- The prefix and the rest tile the source. -/
theorem tiles_splitPrefix (a : Ref μ (.arr S t)) (h : P.count ≤ S.count) :
    Window.Tiles [(⟨a.addr⟩ : Ref μ (.arr P t)).window,
      (⟨a.addr + P.count * t.count, S.count - P.count⟩ : Slice μ t).window] a.window := by
  have htiles := Window.tiles_pair a.addr (P.count * t.count) ((S.count - P.count) * t.count)
  rw [← Nat.add_mul, Nat.add_sub_cancel' h] at htiles
  simpa only [window, Slice.window, Ty.count_arr] using htiles

/-- The rest and the suffix tile the source. -/
theorem tiles_splitSuffix (a : Ref μ (.arr S t)) (h : P.count ≤ S.count) :
    Window.Tiles [(⟨a.addr, S.count - P.count⟩ : Slice μ t).window,
      (⟨a.addr + (S.count - P.count) * t.count⟩ : Ref μ (.arr P t)).window] a.window := by
  have htiles := Window.tiles_pair a.addr ((S.count - P.count) * t.count) (P.count * t.count)
  rw [← Nat.add_mul, Nat.sub_add_cancel h] at htiles
  simpa only [window, Slice.window, Ty.count_arr] using htiles

end Ref

/-- Every view function checks the lengths its proof is about. The proofs `p` and
`q` are arbitrary values here. -/
theorem views_check_lengths (hS : S.Evaluates w) (hP : P.Evaluates w) (overflowChecks : Bool)
    (p : SameLen S S2) (q : AtMost P S) (a : Ref μ (.arr S t)) :
    PanicsUnless (a.cast w p : Exec σ _) (S.count = S2.count)
      (fun b => b.window.Inside a.window) ∧
    PanicsUnless (a.splitPrefix w q : Exec σ _) (P.count ≤ S.count)
      (fun r => P.count + r.2.len = S.count ∧
        Window.Tiles [r.1.window, r.2.window] a.window) ∧
    PanicsUnless (a.prefixArray w q : Exec σ _) (P.count ≤ S.count)
      (fun b => b.window.Inside a.window) ∧
    PanicsUnless (a.splitSuffix w overflowChecks q : Exec σ _) (P.count ≤ S.count)
      (fun r => r.1.len + P.count = S.count ∧
        Window.Tiles [r.1.window, r.2.window] a.window) ∧
    PanicsUnless (a.suffixArray w overflowChecks q : Exec σ _) (P.count ≤ S.count)
      (fun b => b.window.Inside a.window) ∧
    (∀ (s : Slice μ t) (n : Nat), s.len < 2 ^ w →
      ((∃ arrays, s.asArrays w S n = some arrays) ↔ n * S.count = s.len) ∧
      ∀ arrays, s.asArrays w S n = some arrays → arrays.len = n ∧ arrays.window = s.window) := by
  have hprefix : PanicsUnless (a.splitPrefix w q : Exec σ _) (P.count ≤ S.count)
      (fun r => P.count + r.2.len = S.count ∧
        Window.Tiles [r.1.window, r.2.window] a.window) :=
    .of_ite (a.splitPrefix_eq hS q) fun h => ⟨Nat.add_sub_cancel' h, a.tiles_splitPrefix h⟩
  have hsuffix : PanicsUnless (a.splitSuffix w overflowChecks q : Exec σ _) (P.count ≤ S.count)
      (fun r => r.1.len + P.count = S.count ∧
        Window.Tiles [r.1.window, r.2.window] a.window) :=
    .of_ite (a.splitSuffix_eq hS hP q) fun h => ⟨Nat.sub_add_cancel h, a.tiles_splitSuffix h⟩
  refine ⟨.of_ite (a.cast_eq hS p) ?_, hprefix, ?_, hsuffix, ?_, ?_⟩
  · intro h
    have hwindow : (⟨a.addr⟩ : Ref μ (.arr S2 t)).window = a.window := by
      simp [Ref.window, h]
    exact hwindow ▸ Window.Inside.refl _
  · exact hprefix.map Prod.fst fun r h => h.2.inside (by simp)
  · exact hsuffix.map Prod.snd fun r h => h.2.inside (by simp)
  · intro s n hlen
    rw [Slice.asArrays_eq hlen]
    by_cases h : n * S.count = s.len
    · rw [if_pos h]
      refine ⟨⟨fun _ => h, fun _ => ⟨_, rfl⟩⟩, fun arrays harrays => ?_⟩
      rw [← Option.some.inj harrays]
      exact ⟨rfl, by simp [Slice.window, ← h, Nat.mul_assoc]⟩
    · rw [if_neg h]
      exact ⟨⟨by simp, fun heq => absurd heq h⟩, by simp⟩

/-- Three elements do not have a suffix of five: without overflow checks, `3 - 5`
wraps to 254 on an eight-bit target, and the split at 254 panics. -/
theorem views_check_lengths_wrapping :
    ((⟨0⟩ : Ref .shared (.arr (.len 3) .elem)).splitSuffix 8 false
      (⟨⟩ : AtMost (.len 5) (.len 3)) : Exec Unit _) () = .panic () :=
  have hchecks := views_check_lengths (by decide) (by decide) false
    (⟨⟩ : SameLen (.len 3) (.len 3)) ⟨⟩ _
  hchecks.2.2.2.1.panics (by decide) ()

end ConstArray
