import Mathlib.Data.List.Basic
import Mathlib.Logic.Relation

/-! # A channel that keeps order

What a one-way channel is for: the receiver goes through the positions of what was
sent, and at each one either delivers the message of that position or gives it up.
Nothing is delivered twice, out of order, or without having been sent.
-/

namespace ConstArray.Foundation

/-- Every entry of a log meets `P` at its position, counted from `c` on. -/
def Numbered {E : Type} (P : Nat → E → Prop) (c : Nat) (log : List E) : Prop :=
  ∀ i e, log[i]? = some e → P (c + i) e

namespace Numbered

variable {E : Type} {P : Nat → E → Prop} {c : Nat} {log log' : List E}

theorem nil : Numbered P c [] := fun _ _ hi => nomatch hi

theorem cons (hlog : Numbered P (c + 1) log) {e : E} (h : P c e) : Numbered P c (e :: log) := by
  intro i e' hi
  cases i with
  | zero =>
      cases hi
      exact h
  | succ i =>
      have hrest := hlog i e' hi
      rwa [show c + 1 + i = c + (i + 1) by omega] at hrest

theorem append (hlog : Numbered P c log) (hlog' : Numbered P (c + log.length) log') :
    Numbered P c (log ++ log') := by
  intro i e hi
  rcases Nat.lt_or_ge i log.length with hlt | hge
  · rw [List.getElem?_append_left hlt] at hi
    exact hlog i e hi
  · rw [List.getElem?_append_right hge] at hi
    have hrest := hlog' _ e hi
    rwa [show c + log.length + (i - log.length) = c + i by omega] at hrest

end Numbered

namespace OrderedChannel

variable {M : Type}

/-- The messages sent so far, the number of positions the receiver is done with, and
what it has delivered. -/
@[ext] structure State (M : Type) where
  sent : List M
  position : Nat
  delivered : List M

/-- One step of a party. The steps of both interleave freely. -/
inductive Step : State M → State M → Prop where
  | «send» (s : State M) (m : M) : Step s { s with sent := s.sent ++ [m] }
  | deliver (s : State M) (m : M) (h : s.sent[s.position]? = some m) :
      Step s { s with position := s.position + 1, delivered := s.delivered ++ [m] }
  | skip (s : State M) : Step s { s with position := s.position + 1 }

/-- The states of all runs. -/
def Reachable (s : State M) : Prop := Relation.ReflTransGen Step ⟨[], 0, []⟩ s

namespace Reachable

variable {s : State M}

theorem start : Reachable (⟨[], 0, []⟩ : State M) := .refl

end Reachable

end OrderedChannel

end ConstArray.Foundation
