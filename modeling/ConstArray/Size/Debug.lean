import ConstArray.Size.Basic

/-! # The printed form of a size

Sizes print their structure, such as `Sum<Len<2>, Len<4>>`. The text can be read back in
exactly one way, also when more text follows.
-/

namespace ConstArray.Size

/-- `Debug` of `Len`, `Sum` and `Prod`. -/
def debug : ConcreteSize → List Char
  | .param p => p.elim
  | .len n => "Len<".toList ++ (Nat.toDigits 10 n ++ ['>'])
  | .sum a b => "Sum<".toList ++ (a.debug ++ (", ".toList ++ (b.debug ++ ['>'])))
  | .prod a b => "Prod<".toList ++ (a.debug ++ (", ".toList ++ (b.debug ++ ['>'])))

/-- Digits end where something else starts. -/
theorem digits_append_inj {ds es : List Char} {c : Char} {rest rest' : List Char}
    (hds : ∀ d ∈ ds, d.isDigit) (hes : ∀ e ∈ es, e.isDigit) (hc : ¬c.isDigit)
    (h : ds ++ c :: rest = es ++ c :: rest') : ds = es ∧ rest = rest' := by
  induction ds generalizing es with
  | nil =>
      cases es with
      | nil => exact ⟨rfl, List.tail_eq_of_cons_eq h⟩
      | cons e es =>
          have hhead := List.head_eq_of_cons_eq h
          exact absurd (hhead ▸ hes e List.mem_cons_self) hc
  | cons d ds ih =>
      cases es with
      | nil =>
          have hhead := List.head_eq_of_cons_eq h
          exact absurd (hhead ▸ hds d List.mem_cons_self) hc
      | cons e es =>
          obtain ⟨rfl, htail⟩ := List.cons.inj h
          obtain ⟨rfl, hrest⟩ := ih (fun x hx => hds x (List.mem_cons_of_mem _ hx))
            (fun x hx => hes x (List.mem_cons_of_mem _ hx)) htail
          exact ⟨rfl, hrest⟩

theorem toDigits_inj {n m : Nat} (h : Nat.toDigits 10 n = Nat.toDigits 10 m) : n = m := by
  rw [← Nat.ofDigitChars_ten_toDigits (n := n), h, Nat.ofDigitChars_ten_toDigits]

/-- Two parts between the same pair of brackets. -/
theorem debug_pair_inj {a b c d : ConcreteSize}
    (ha : ∀ T rest rest', a.debug ++ rest = T.debug ++ rest' → a = T ∧ rest = rest')
    (hb : ∀ T rest rest', b.debug ++ rest = T.debug ++ rest' → b = T ∧ rest = rest')
    {rest rest' : List Char}
    (h : a.debug ++ (", ".toList ++ (b.debug ++ '>' :: rest)) =
      c.debug ++ (", ".toList ++ (d.debug ++ '>' :: rest'))) :
    a = c ∧ b = d ∧ rest = rest' := by
  obtain ⟨hac, hsep⟩ := ha _ _ _ h
  obtain ⟨hbd, hend⟩ := hb _ _ _ (List.append_cancel_left hsep)
  exact ⟨hac, hbd, List.tail_eq_of_cons_eq hend⟩

theorem debug_append_inj {S T : ConcreteSize} {rest rest' : List Char}
    (h : S.debug ++ rest = T.debug ++ rest') : S = T ∧ rest = rest' := by
  induction S generalizing T rest rest' with
  | param p => exact p.elim
  | len n =>
      cases T with
      | param p => exact p.elim
      | len m =>
          simp only [debug, List.append_assoc, List.singleton_append] at h
          obtain ⟨hdigits, hrest⟩ := digits_append_inj
            (fun d hd => Nat.isDigit_of_mem_toDigits (by decide) (by decide) hd)
            (fun e he => Nat.isDigit_of_mem_toDigits (by decide) (by decide) he) (by decide)
            (List.append_cancel_left h)
          exact ⟨congrArg len (toDigits_inj hdigits), hrest⟩
      | _ => simp [debug] at h
  | sum a b iha ihb =>
      cases T with
      | param p => exact p.elim
      | sum c d =>
          simp only [debug, List.append_assoc, List.singleton_append] at h
          obtain ⟨rfl, rfl, hrest⟩ := debug_pair_inj (fun _ _ _ => iha) (fun _ _ _ => ihb)
            (List.append_cancel_left h)
          exact ⟨rfl, hrest⟩
      | _ => simp [debug] at h
  | prod a b iha ihb =>
      cases T with
      | param p => exact p.elim
      | prod c d =>
          simp only [debug, List.append_assoc, List.singleton_append] at h
          obtain ⟨rfl, rfl, hrest⟩ := debug_pair_inj (fun _ _ _ => iha) (fun _ _ _ => ihb)
            (List.append_cancel_left h)
          exact ⟨rfl, hrest⟩
      | _ => simp [debug] at h

/-- The text of a size tells where it ends and determines the structure. -/
theorem debug_unique (S T : ConcreteSize) (rest rest' : List Char) :
    S.debug ++ rest = T.debug ++ rest' ↔ S = T ∧ rest = rest' :=
  ⟨debug_append_inj, fun ⟨hS, hrest⟩ => by rw [hS, hrest]⟩

example : debug (.sum (.len 2) (.prod (.len 10) (.len 4))) =
    "Sum<Len<2>, Prod<Len<10>, Len<4>>>".toList := by decide

end ConstArray.Size
